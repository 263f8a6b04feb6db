import Rolex.IndexRuns

/-!
The pairs that an index stores, submodel after submodel, and the copies of one key among them.
-/

namespace Rolex
open AscendingMap BlockChain

namespace RolexIndex

variable {F V : Type} {N : ℕ}

def stored (r : RolexIndex F V N) : Except Fault (List (Key × V)) := do
  let es ← r.models.mapM fun m => (⟨m.ltable, r.RM.leafAllocator⟩ : TableState Key V N).stored
  .ok es.flatten

def copies (r : RolexIndex F V N) (key : Key) : Except Fault (List V) := do
  let es ← r.stored
  .ok ((es.filter fun e => e.1 = key).map Prod.snd)

def tableSize (r : RolexIndex F V N) (i : ℕ) : ℕ := (r.models[i]?.map fun m => m.ltable.size).getD 0

theorem tableSize_eq {r : RolexIndex F V N} {i : ℕ} {m : SubModel F} (hm : r.models[i]? = some m) :
    r.tableSize i = m.ltable.size := by
  rw [tableSize, hm]
  rfl

end RolexIndex

theorem mapM_getElem_ok {α β : Type} {f : α → Except Fault β} {l : List α} : ∀ {g : ℕ → β},
    (∀ i a, l[i]? = some a → f a = .ok (g i)) → l.mapM f = .ok ((List.range l.length).map g) := by
  induction l with
  | nil => exact fun _ => rfl
  | cons a l ih =>
    intro g h
    have hrest := ih (g := fun i => g (i + 1)) fun i b hb => h (i + 1) b hb
    rw [List.mapM_cons, h 0 a rfl, ok_bind, hrest, ok_bind, List.length_cons,
      List.range_succ_eq_map, List.map_cons, List.map_map]
    rfl

theorem flatMap_range_single {α : Type} {f : ℕ → List α} {i n : ℕ} (hi : i < n)
    (h : ∀ j < n, j ≠ i → f j = []) : (List.range n).flatMap f = f i := by
  induction n with
  | zero => omega
  | succ n ih =>
    rw [List.range_succ, List.flatMap_append, List.flatMap_singleton]
    rcases eq_or_lt_of_le (Nat.lt_succ_iff.mp hi) with rfl | hlt
    · rw [List.flatMap_eq_nil_iff.mpr fun j hj => ?_, List.nil_append]
      have := List.mem_range.mp hj
      exact h j (by omega) (by omega)
    · rw [ih hlt fun j hj => h j (by omega), h n (Nat.lt_succ_self n) (by omega), List.append_nil]

theorem filter_key {K V : Type} [LinearOrder K] {es : List (K × V)} (h : Ascending es) (k : K) :
    (es.filter fun e => e.1 = k).map Prod.snd = (es.lookup k).toList := by
  cases hl : es.lookup k with
  | none =>
    rw [List.filter_eq_nil_iff.mpr fun e he => by simpa using lookup_eq_none.mp hl e he]
    rfl
  | some v =>
    obtain ⟨xs, ys, rfl, hx, hy⟩ := exists_mid h hl
    rw [List.filter_append, List.filter_cons_of_pos (by simp),
      List.filter_eq_nil_iff.mpr fun e he => by simpa using hx e he,
      List.filter_eq_nil_iff.mpr fun e he => by simpa using hy e he]
    rfl

variable {F V : Type} {N : ℕ} {r : RolexIndex F V N} {slots : ℕ → ℕ → List ℕ}
  {chains : ℕ → ℕ → List (List (Key × V))} {key : Key}

theorem IndexSound.stored_ok (h : IndexSound r slots chains) :
    r.stored = .ok ((List.range r.models.length).flatMap fun i =>
      (List.range (r.tableSize i)).flatMap fun a => (chains i a).flatten) := by
  have htable : ∀ i m, r.models[i]? = some m →
    (⟨m.ltable, r.RM.leafAllocator⟩ : TableState Key V N).stored =
      .ok ((List.range (r.tableSize i)).flatMap fun a => (chains i a).flatten) := fun i m hm => by
    rw [(h.sound i m hm).toRepresents.stored_ok (s := ⟨m.ltable, r.RM.leafAllocator⟩),
      r.tableSize_eq hm, List.flatMap_def]
  rw [RolexIndex.stored, mapM_getElem_ok htable, ok_bind, List.flatMap_def]

theorem IndexSound.copies_ok (h : IndexSound r slots chains) (key : Key) :
    r.copies key = .ok ((List.range r.models.length).flatMap fun i =>
      (List.range (r.tableSize i)).flatMap fun a => ((chains i a).flatten.lookup key).toList) := by
  rw [RolexIndex.copies, h.stored_ok, ok_bind, List.filter_flatMap, List.map_flatMap]
  congr 1
  refine List.flatMap_congr fun i hi => ?_
  rw [List.filter_flatMap, List.map_flatMap]
  refine List.flatMap_congr fun a ha => filter_key ?_ key
  have hm := List.getElem?_eq_getElem (List.mem_range.mp hi)
  rw [List.mem_range, r.tableSize_eq hm] at ha
  exact ((h.sound i _ hm).ordered a ha).ascending

theorem IndexSound.copies_eq_nil (h : IndexSound r slots chains) :
    r.copies key = .ok [] ↔ ∀ (i : ℕ) (m : SubModel F), r.models[i]? = some m → ∀ a < m.ltable.size,
      (chains i a).flatten.lookup key = none := by
  rw [h.copies_ok key, Except.ok.injEq, List.flatMap_eq_nil_iff]
  constructor
  · intro hall i m hm a ha
    have hi := List.mem_range.mpr (List.getElem?_eq_some_iff.mp hm).1
    have hrow := List.flatMap_eq_nil_iff.mp (hall i hi) a
      (by rwa [List.mem_range, r.tableSize_eq hm])
    exact Option.toList_eq_nil_iff.mp hrow
  · intro hall i hi
    have hm := List.getElem?_eq_getElem (List.mem_range.mp hi)
    refine List.flatMap_eq_nil_iff.mpr fun a ha => ?_
    rw [List.mem_range, r.tableSize_eq hm] at ha
    rw [hall i _ hm a ha]
    rfl

theorem IndexSound.copies_eq_single (h : IndexSound r slots chains) {i a : ℕ} {m : SubModel F}
    (hm : r.models[i]? = some m) (ha : a < m.ltable.size) {v : V}
    (hv : (chains i a).flatten.lookup key = some v)
    (hother : ∀ (j : ℕ) (m' : SubModel F), r.models[j]? = some m' →
      ∀ b < m'.ltable.size, (j, b) ≠ (i, a) →
      (chains j b).flatten.lookup key = none) : r.copies key = .ok [v] := by
  rw [h.copies_ok key, flatMap_range_single (i := i) (List.getElem?_eq_some_iff.mp hm).1,
    r.tableSize_eq hm, flatMap_range_single ha, hv]
  · rfl
  · intro b hb hba
    rw [hother i m hm b hb fun heq => hba (Prod.mk.inj heq).2]
    rfl
  · intro j hj hji
    have hmj := List.getElem?_eq_getElem hj
    refine List.flatMap_eq_nil_iff.mpr fun b hb => ?_
    rw [List.mem_range, r.tableSize_eq hmj] at hb
    rw [hother j _ hmj b hb fun heq => hji (Prod.mk.inj heq).1]
    rfl

end Rolex
