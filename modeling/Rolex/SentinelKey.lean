import Rolex.FailedCalls
import Rolex.SentinelSteps

/-!
Calls with `Leaf::invalidKey()`, the key that marks an empty slot and that no caller filters out. An
empty slot passes for this key; where no empty slot is met, every answer is true to the stored keys.
-/

namespace Rolex
open AscendingMap BlockChain

variable {K V : Type} {N : ℕ} [LinearOrder K] [OrderTop K]

/-! ### Leaves -/

namespace Leaf

variable {leaf : Leaf K V N} {es : List (K × V)}

theorem findIdx?_top (h : ∀ x ∈ leaf.keys, x ≠ (⊤ : K)) :
    leaf.keys.findIdx? (fun k => k = (⊤ : K)) = none := by
  rw [List.findIdx?_eq_none_iff]
  exact fun x hx => decide_eq_false (h x hx)

theorem Holds.search_top (h : leaf.Holds es) (hN : 0 < N) (hfull : leaf.isfull = true) :
    leaf.search ⊤ = none := by
  rw [search, findIdx?_top (h.ne_top_of_full hN hfull), if_neg (not_lt.mpr le_top)]
  rfl

theorem Holds.update_top (h : leaf.Holds es) (hN : 0 < N) (hfull : leaf.isfull = true) (v : V) :
    leaf.update ⊤ v = (false, leaf) := by
  rw [update, findIdx?_top (h.ne_top_of_full hN hfull), if_neg (not_lt.mpr le_top)]

theorem Holds.remove_top (h : leaf.Holds es) (hN : 0 < N) (hfull : leaf.isfull = true) :
    leaf.remove ⊤ = (false, leaf) := by
  rw [remove, findIdx?_top (h.ne_top_of_full hN hfull)]

theorem Holds.isEmpty_of_full (h : leaf.Holds es) (hN : 0 < N) (hfull : leaf.isfull = true) :
    leaf.isEmpty = false := by
  have hlen := (h.isfull_iff hN).mp hfull
  rw [Bool.eq_false_iff]
  intro hempty
  rw [h.isEmpty_iff.mp hempty, List.length_nil] at hlen
  omega

end Leaf

/-! ### The leaves that the key leads to -/

section Table

variable {t : LeafTable} {alloc : LeafAllocator K V N} {slots : ℕ → List ℕ}
  {chains : ℕ → List (List (K × V))} {i lo hi : ℕ}

theorem Represents.pickEntry_top (h : Represents t alloc slots chains) (hle : lo ≤ hi)
    (hlt : hi < t.size) : t.pickEntry alloc ⊤ lo hi = .ok (hi, t.entryNum hi) := by
  rcases eq_or_lt_of_le hle with rfl | hlt'
  · have hfirst : t.pickEntry alloc ⊤ lo lo =
        (t.entryLeaf alloc lo >>= fun leaf => .ok (lo, leaf)) := by
      cases lo with
      | zero => rfl
      | succ i => rw [LeafTable.pickEntry, if_neg (by omega)]
    rw [hfirst, h.entryLeaf_ok hlt, ok_bind]
  · obtain ⟨n, rfl⟩ : ∃ n, hi = n + 1 := ⟨hi - 1, by omega⟩
    rw [LeafTable.pickEntry, if_pos hlt', h.entryLeaf_ok hlt, ok_bind, insertHere_top, if_pos rfl]

theorem Represents.holds_of_mem (h : Represents t alloc slots chains) (hi : i < t.size) {p : ℕ}
    (hp : p ∈ t.chainNums i (slots i)) : ∃ es, (alloc.leaves p).Holds es := by
  obtain ⟨es, _, hpe⟩ := (Represents.exists_of_forall₂ (h.holds i hi)).1 p hp
  exact ⟨es, hpe⟩

theorem Represents.searchFromBack_top (h : Represents t alloc slots chains) (hN : 0 < N)
    (hi : i < t.size) (hfull : ∀ p ∈ t.chainNums i (slots i), (alloc.leaves p).isfull = true)
    {m : ℕ} (hm : m ≤ (slots i).length) : t.searchFromBack alloc ⊤ (slots i) m = .ok none := by
  induction m with
  | zero => rfl
  | succ m ih =>
    have hmem : (slots i).getD m 0 ∈ slots i := by
      rw [List.getD_eq_getElem _ _ (by omega)]
      exact List.getElem_mem _
    have hp : t.slotNum ((slots i).getD m 0) ∈ t.chainNums i (slots i) :=
      List.mem_cons_of_mem _ (List.mem_map_of_mem hmem)
    obtain ⟨es, hes⟩ := h.holds_of_mem hi hp
    rw [LeafTable.searchFromBack, h.slotLeaf_ok hi hmem, ok_bind]
    split
    · rename_i v hv
      rw [hes.search_top hN (hfull _ hp)] at hv
      cases hv
    · exact ih (by omega)

theorem Represents.searchEntry_top (h : Represents t alloc slots chains) (hN : 0 < N)
    (hi : i < t.size) (hfull : ∀ p ∈ t.chainNums i (slots i), (alloc.leaves p).isfull = true) :
    t.searchEntry alloc ⊤ i (t.entryNum i) = .ok none := by
  obtain ⟨es, hes⟩ := h.holds_of_mem hi List.mem_cons_self
  rw [LeafTable.searchEntry, hes.search_top hN (hfull _ List.mem_cons_self)]
  dsimp only
  rw [LeafTable.searchSynonym, h.synonymLeaves_ok hi, ok_bind,
    h.searchFromBack_top hN hi hfull le_rfl]

theorem Sound.updateSynonym_full_top (h : Sound t alloc slots chains) (hN : 0 < N) (hi : i < t.size)
    {p : ℕ} (hlast : (t.chainNums i (slots i)).getLast? = some p)
    (hfull : (alloc.leaves p).isfull = true) (v : V) :
    t.updateSynonym alloc ⊤ v i (t.entryNum i) = .ok (false, t, alloc) := by
  obtain ⟨q, es, hq, hes, hupdate, _⟩ := h.updateSynonym_top hi v
  obtain rfl := Option.some.inj (hq.symm.trans hlast)
  rw [hupdate, hes.update_top hN hfull, alloc.write_self]

theorem Sound.removeSynonym_full_top (h : Sound t alloc slots chains) (hN : 0 < N) (hi : i < t.size)
    {p : ℕ} (hlast : (t.chainNums i (slots i)).getLast? = some p)
    (hfull : (alloc.leaves p).isfull = true) :
    t.removeSynonym alloc ⊤ i (t.entryNum i) = .ok (false, t, alloc) := by
  obtain ⟨pre, b, npre, q, f, hpick⟩ := h.exists_last hi
  obtain rfl := Option.some.inj (f.getLast?_nums.symm.trans hlast)
  have hl := locked h.toRepresents i
  have hil : i < (t.modifyEntry i (TableEntry.withLock 1)).size := by rwa [t.modifyEntry_size]
  rw [LeafTable.removeSynonym, LeafTable.lockLeaf_ok hi (h.idle.te i), ok_bind,
    hl.synonymLeaves_ok hil, ok_bind, LeafTable.pickSynonym_modifyEntry, hpick, ok_bind]
  simp only [f.pickedLeaf_eq, f.holds.remove_top hN hfull, f.holds.isEmpty_of_full hN hfull]
  rw [LeafTable.unlinkEmptied_stays (Or.inl rfl), ok_bind,
    LeafTable.unlockLeaf_lock hi (h.idle.te i), alloc.write_self]

end Table

/-! ### Calls with the key -/

/-- No empty slot passes for `Leaf::invalidKey()`: the leaves that `search` reads, or the one that
`update` and `remove` pick, are full; an `insert` is refused. -/
def SlotsHidden (s : TableState K V N) (op : TableOp K V) (hi : ℕ) : Prop :=
  ∃ leaves, s.table.chainLeaves s.alloc hi = .ok leaves ∧
    match op with
    | .search _ => ∀ p ∈ leaves, (s.alloc.leaves p).isfull = true
    | .insert _ _ => s.room = false ∨ ∃ p, leaves.getLast? = some p ∧
        (s.alloc.leaves p).isfull = false
    | .update _ _ => ∃ p, leaves.getLast? = some p ∧ (s.alloc.leaves p).isfull = true
    | .remove _ => ∃ p, leaves.getLast? = some p ∧ (s.alloc.leaves p).isfull = true

theorem Sound.sentinel_call {s : TableState K V N} {slots : ℕ → List ℕ}
    {chains : ℕ → List (List (K × V))} (h : Sound s.table s.alloc slots chains) (hN : 0 < N)
    {op : TableOp K V} (hk : op.key = ⊤) {lo hi : ℕ} (hle : lo ≤ hi) (hlt : hi < s.table.size)
    (hs : SlotsHidden s op hi) : s.call op lo hi = .ok (op.answer false [], s) := by
  obtain ⟨leaves, hleaves, hs⟩ := hs
  obtain rfl := Except.ok.inj ((h.toRepresents.chainLeaves_ok hlt).symm.trans hleaves)
  have hpick := h.toRepresents.pickEntry_top hle hlt
  cases op with
  | search key =>
    obtain rfl : key = ⊤ := hk
    rw [TableState.call, LeafTable.search, if_pos hlt, hpick, ok_bind,
      h.toRepresents.searchEntry_top hN hlt hs, ok_bind]
    rfl
  | update key val =>
    obtain rfl : key = ⊤ := hk
    obtain ⟨p, hlast, hfull⟩ := hs
    rw [TableState.call, LeafTable.update, if_pos hlt, hpick, ok_bind,
      h.updateSynonym_full_top hN hlt hlast hfull, ok_bind]
    rfl
  | insert key val =>
    obtain rfl : key = ⊤ := hk
    have hinsert : s.table.insertSynonym s.alloc ⊤ val hi (s.table.entryNum hi) =
        .ok (false, s.table, s.alloc) := by
      rcases hs with hroom | ⟨p, hlast, hroom⟩
      · rw [TableState.room, decide_eq_false_iff_not, not_lt] at hroom
        exact insertSynonym_full (le_antisymm h.countLe hroom) val _
      · exact h.insertSynonym_top_refused hN hlt hlast (Or.inr hroom) val
    rw [TableState.call, LeafTable.insert, if_pos ⟨hlt, hle⟩, hpick, ok_bind, hinsert, ok_bind]
    rfl
  | remove key =>
    obtain rfl : key = ⊤ := hk
    obtain ⟨p, hlast, hfull⟩ := hs
    rw [TableState.call, LeafTable.remove, if_pos hlt, hpick, ok_bind,
      h.removeSynonym_full_top hN hlt hlast hfull, ok_bind]
    rfl

/-! ### Runs -/

/-- What an answer `true` promises, `live` being the keys that were trained or inserted and not
removed since. -/
def CallRight (lo hi : K → ℕ) (live : Set K) (op : TableOp K V) (ans : Answer V)
    (s' : TableState K V N) : Prop :=
  match op with
  | .search key => ∀ v, ans = .found (some v) → key ∈ live
  | .update key _ => ans = .done true → key ∈ live
  | .insert key val => ans = .done true →
      s'.table.search s'.alloc key (lo key) (hi key) = .ok (some val)
  | .remove key => ans = .done true → key ∈ live

def liveAfter (live : Set K) (op : TableOp K V) (ans : Answer V) : Set K :=
  match op, ans with
  | .insert key _, .done true => insert key live
  | .remove key, .done true => live \ {key}
  | _, _ => live

def Truthful (lo hi : K → ℕ) : TableState K V N → Set K → List (TableOp K V) → Prop
  | _, _, [] => True
  | s, live, op :: ops => ∀ ans s', s.call op (lo op.key) (hi op.key) = .ok (ans, s') →
      CallRight lo hi live op ans s' ∧ Truthful lo hi s' (liveAfter live op ans) ops

/-- In every state of the run, a call with `Leaf::invalidKey()` meets no empty slot. -/
def Guarded (lo hi : K → ℕ) : TableState K V N → List (TableOp K V) → Prop
  | _, [] => True
  | s, op :: ops => (op.key < ⊤ ∨ op.key = ⊤ ∧ SlotsHidden s op (hi op.key)) ∧
      ∀ ans s', s.call op (lo op.key) (hi op.key) = .ok (ans, s') → Guarded lo hi s' ops

open Homed

/-- A key that is not live is out of reach: the window of a stored key leads to its entry or below
it. -/
structure Kept (lo hi : K → ℕ) (size : ℕ) (live : Set K)
    (chains : ℕ → List (List (K × V))) : Prop where
  below : ∀ i < size, ∀ e ∈ (chains i).flatten, e.1 < ⊤
  home : ∀ i < size, ∀ e ∈ (chains i).flatten, lo e.1 ≤ i → home chains lo hi e.1 ≤ i
  live : ∀ i < size, ∀ e ∈ (chains i).flatten, Homed.home chains lo hi e.1 = i → e.1 ∈ live

theorem Sound.search_insert {t : LeafTable} {alloc : LeafAllocator K V N} {slots : ℕ → List ℕ}
    {chains : ℕ → List (List (K × V))} {lo hi : K → ℕ} {size : ℕ} {k : K} {v : V}
    (h : Sound t alloc slots (Function.update chains (home chains lo hi k)
      (BlockChain.insert N k v (chains (home chains lo hi k))))) (hw : Windows lo hi size)
    (hmono : ∀ a b, a ≤ b → b < ⊤ → lo a ≤ lo b) (ho : ∀ i < size, Ordered (chains i)) (hN : 2 ≤ N)
    (hk : k < ⊤) (hsize : t.size = size)
    (hnone : (chains (home chains lo hi k)).flatten.lookup k = none) :
    t.search alloc k (lo k) (hi k) = .ok (some v) := by
  have hlt : home chains lo hi k < size := (target_le (hw.le k hk)).trans_lt (hw.lt k hk)
  have hord := ho _ hlt
  have hhome := home_insert hw hmono ho hN hk v hk
  have hfound : (Function.update chains (home chains lo hi k)
      (BlockChain.insert N k v (chains (home chains lo hi k)))
      (home chains lo hi k)).flatten.lookup k = some v := by
    rw [Function.update_self, flatten_insert hord]
    exact (lookup_put hord.ascending (lookup_eq_none.mp hnone)).trans (if_pos rfl)
  rw [h.search_ok hk (hw.le k hk) (hsize ▸ hw.lt k hk)]
  exact congrArg Except.ok ((congrArg (fun i => ((Function.update chains _ _ i).flatten.lookup k))
    hhome).trans hfound)

namespace Kept

variable {lo hi : K → ℕ} {size : ℕ} {live : Set K} {chains : ℕ → List (List (K × V))} {k : K}
  {v : V}

theorem mono (h : Kept lo hi size live chains) {live' : Set K} (hsub : live ⊆ live') :
    Kept lo hi size live' chains :=
  ⟨h.below, h.home, fun i hi' e he hh => hsub (h.live i hi' e he hh)⟩

theorem update (h : Kept lo hi size live chains) (hw : Windows lo hi size) {i : ℕ} (hi' : i < size)
    (ho : ∀ i < size, Ordered (chains i)) (k : K) (v : V) :
    Kept lo hi size live (Function.update chains i (BlockChain.update k v (chains i))) where
  below := fun j hj e he => by
    obtain ⟨e', he', heq⟩ := mem_update_chain (ho i hi') he
    exact heq ▸ h.below j hj e' he'
  home := fun j hj e he hlo => by
    obtain ⟨e', he', heq⟩ := mem_update_chain (ho i hi') he
    rw [home_update hw (ho i hi') k v (heq ▸ h.below j hj e' he'), ← heq]
    exact h.home j hj e' he' (heq ▸ hlo)
  live := fun j hj e he hh => by
    obtain ⟨e', he', heq⟩ := mem_update_chain (ho i hi') he
    rw [home_update hw (ho i hi') k v (heq ▸ h.below j hj e' he'), ← heq] at hh
    exact heq ▸ h.live j hj e' he' hh

theorem insert (h : Kept lo hi size live chains) (hw : Windows lo hi size)
    (hmono : ∀ a b, a ≤ b → b < ⊤ → lo a ≤ lo b) (ho : ∀ i < size, Ordered (chains i)) (hN : 2 ≤ N)
    (hk : k < ⊤) (v : V) :
    Kept lo hi size (insert k live) (Function.update chains (Homed.home chains lo hi k)
      (BlockChain.insert N k v (chains (Homed.home chains lo hi k)))) := by
  have htarget := fun x (hx : x < ⊤) => home_insert hw hmono ho hN hk v hx
  have hi' : Homed.home chains lo hi k < size := (target_le (hw.le k hk)).trans_lt (hw.lt k hk)
  have hmem : ∀ j < size, ∀ e ∈ (Function.update chains (Homed.home chains lo hi k)
      (BlockChain.insert N k v (chains (Homed.home chains lo hi k))) j).flatten,
      e.1 = k ∧ j = Homed.home chains lo hi k ∨ e ∈ (chains j).flatten := by
    intro j hj e he
    rcases mem_update he with ⟨rfl, hm⟩ | ⟨_, hm⟩
    · exact ((mem_flatten_insert (ho _ hi')).mp hm).imp_left fun heq => ⟨congrArg Prod.fst heq, rfl⟩
    · exact Or.inr hm
  have hbelow : ∀ j < size, ∀ e ∈ (Function.update chains (Homed.home chains lo hi k)
      (BlockChain.insert N k v (chains (Homed.home chains lo hi k))) j).flatten, e.1 < ⊤ := by
    intro j hj e he
    rcases hmem j hj e he with ⟨hek, _⟩ | hm
    · exact hek ▸ hk
    · exact h.below j hj e hm
  refine ⟨hbelow, fun j hj e he hlo => ?_, fun j hj e he hh => ?_⟩
  · rw [htarget e.1 (hbelow j hj e he)]
    rcases hmem j hj e he with ⟨hek, rfl⟩ | hm
    · rw [hek]
    · exact h.home j hj e hm hlo
  · rw [htarget e.1 (hbelow j hj e he)] at hh
    rcases hmem j hj e he with ⟨hek, _⟩ | hm
    · exact Or.inl hek
    · exact Or.inr (h.live j hj e hm hh)

/-- A removal may move the way of a key down, where no copy of it lies that was out of reach. -/
theorem remove (h : Kept lo hi size live chains) (hw : Windows lo hi size)
    (ho : ∀ i < size, Ordered (chains i)) (hk : k < ⊤) :
    Kept lo hi size (live \ {k}) (Function.update chains (Homed.home chains lo hi k)
      (BlockChain.remove k (chains (Homed.home chains lo hi k)))) := by
  have hi' : Homed.home chains lo hi k < size := (target_le (hw.le k hk)).trans_lt (hw.lt k hk)
  have hmem : ∀ j < size, ∀ e ∈ (Function.update chains (Homed.home chains lo hi k)
      (BlockChain.remove k (chains (Homed.home chains lo hi k))) j).flatten,
      e ∈ (chains j).flatten ∧ (e.1 = k → j ≠ Homed.home chains lo hi k) := by
    intro j hj e he
    rcases mem_update he with ⟨rfl, hm⟩ | ⟨hji, hm⟩
    · have hm := (mem_flatten_remove (ho _ hi')).mp hm
      exact ⟨hm.1, fun hek => absurd hek hm.2⟩
    · exact ⟨hm, fun _ => hji⟩
  have hle := fun x (hx : x < ⊤) => home_remove_le (k := k) hw (ho _ hi') hx
  refine ⟨fun j hj e he => h.below j hj e (hmem j hj e he).1, fun j hj e he hlo => ?_,
    fun j hj e he hh => ?_⟩
  · have hm := (hmem j hj e he).1
    exact (hle e.1 (h.below j hj e hm)).trans (h.home j hj e hm hlo)
  · obtain ⟨hm, hne⟩ := hmem j hj e he
    have hx := h.below j hj e hm
    have hlo : lo e.1 ≤ j := hh ▸ ((target_eq_iff (hw.le e.1 hx)).mp rfl).1
    -- the way of the key was not moved, or it would have led above the entry
    have hsame : Homed.home chains lo hi e.1 = j :=
      le_antisymm (h.home j hj e hm hlo) (hh ▸ hle e.1 hx)
    exact ⟨h.live j hj e hm hsame, fun hek => hne hek (by rw [← hsame, hek])⟩

theorem live_of_lookup (h : Kept lo hi size live chains) {i : ℕ} (hi' : i < size)
    (ho : Ordered (chains i)) (hk : Homed.home chains lo hi k = i)
    (hl : (chains i).flatten.lookup k ≠ none) : k ∈ live := by
  obtain ⟨w, hw'⟩ := Option.ne_none_iff_exists'.mp hl
  exact h.live i hi' _ ((lookup_eq_some ho.ascending k w).mp hw') hk

theorem call {s s' : TableState K V N} {slots : ℕ → List ℕ}
    (h : Kept lo hi s.table.size live chains) (hs : Sound s.table s.alloc slots chains)
    (hN : Even N) (hN0 : 0 < N) (hle : ∀ k, lo k ≤ hi k) (hlt : ∀ k, hi k < s.table.size)
    (hmono : Monotone lo) {op : TableOp K V} {ans : Answer V}
    (hg : op.key < ⊤ ∨ op.key = ⊤ ∧ SlotsHidden s op (hi op.key))
    (hcall : s.call op (lo op.key) (hi op.key) = .ok (ans, s')) :
    CallRight lo hi live op ans s' ∧ ∃ slots' chains', Sound s'.table s'.alloc slots' chains' ∧
      s'.table.size = s.table.size ∧ Kept lo hi s'.table.size (liveAfter live op ans) chains' := by
  have hN2 : 2 ≤ N := by obtain ⟨n, rfl⟩ := hN; omega
  have hw : Windows lo hi s.table.size := ⟨fun k _ => hle k, fun k _ => hlt k⟩
  rcases hg with hk | ⟨hk, hhidden⟩
  · obtain ⟨hhome, rfl, ⟨slots', hstep⟩, _⟩ := hs.call_of_ok hN hN0 hk hcall
    have hord := hs.ordered _ hhome
    have hsize := hstep.size
    have hfound := h.live_of_lookup hhome hord rfl
    suffices hop : CallRight lo hi live op
      (op.answer s.room (chains (Homed.home chains lo hi op.key)).flatten) s' ∧
        Kept lo hi s.table.size
          (liveAfter live op (op.answer s.room (chains (Homed.home chains lo hi op.key)).flatten))
          (Function.update chains (Homed.home chains lo hi op.key)
            (op.edit N s.room (chains (Homed.home chains lo hi op.key)))) from
      ⟨hop.1, slots', _, hstep.sound, hsize, hsize.symm ▸ hop.2⟩
    cases op with
    | search key =>
      refine ⟨fun v hv => hfound ?_, ?_⟩
      · exact Option.ne_none_iff_exists'.mpr ⟨v, Answer.found.inj hv⟩
      · rw [TableOp.edit, Function.update_eq_self]
        exact h
    | update key val =>
      exact ⟨fun hans => hfound (Option.isSome_iff_ne_none.mp (Answer.done.inj hans)),
        h.update hw hhome hs.ordered key val⟩
    | remove key =>
      refine ⟨fun hans => hfound (Option.isSome_iff_ne_none.mp (Answer.done.inj hans)), ?_⟩
      have hremove := h.remove hw hs.ordered hk
      cases hans : ((chains (Homed.home chains lo hi key)).flatten.lookup key).isSome with
      | true =>
        simp only [TableOp.answer, TableOp.key, hans]
        exact hremove
      | false =>
        simp only [TableOp.answer, TableOp.key, hans]
        exact hremove.mono Set.sdiff_subset
    | insert key val =>
      by_cases htaken : s.room = true ∧
        (chains (Homed.home chains lo hi key)).flatten.lookup key = none
      · obtain ⟨hans, hedit⟩ := TableOp.insert_taken (N := N) (v := val) htaken.1 htaken.2
        have hmono' : ∀ a b, a ≤ b → b < ⊤ → lo a ≤ lo b := fun a b hab _ => hmono hab
        have hsound := hstep.sound
        simp only [TableOp.key, hans, hedit] at hsound hk ⊢
        exact ⟨fun _ => hsound.search_insert hw hmono' hs.ordered hN2 hk hsize htaken.2,
          h.insert hw hmono' hs.ordered hN2 hk val⟩
      · have hrefused : s.room = false ∨
            (chains (Homed.home chains lo hi key)).flatten.lookup key ≠ none := by
          rcases Bool.eq_false_or_eq_true s.room with hroom | hroom
          · exact Or.inr fun hnone => htaken ⟨hroom, hnone⟩
          · exact Or.inl hroom
        obtain ⟨hans, hedit⟩ := TableOp.insert_refused (N := N) (v := val) hrefused
        simp only [TableOp.key, hans, hedit, Function.update_eq_self]
        exact ⟨fun hfalse => Bool.noConfusion (Answer.done.inj hfalse), h⟩
  · rw [hs.sentinel_call hN0 hk (hle _) (hlt _) hhidden] at hcall
    obtain ⟨rfl, rfl⟩ := Prod.mk.inj (Except.ok.inj hcall)
    refine ⟨?_, slots, chains, hs, rfl, ?_⟩
    · cases op with
      | search key => exact fun v hv => absurd (Answer.found.inj hv) (by simp)
      | update key val => exact fun hans => Bool.noConfusion (Answer.done.inj hans)
      | insert key val => exact fun hans => Bool.noConfusion (Answer.done.inj hans)
      | remove key => exact fun hans => Bool.noConfusion (Answer.done.inj hans)
    · cases op <;> exact h

theorem truthful (hN : Even N) (hN0 : 0 < N) (hle : ∀ k, lo k ≤ hi k) (hlt : ∀ k, hi k < size)
    (hmono : Monotone lo) {ops : List (TableOp K V)} :
    ∀ {s : TableState K V N} {live : Set K} {slots : ℕ → List ℕ} {chains : ℕ → List (List (K × V))},
      s.table.size = size → Sound s.table s.alloc slots chains →
      Kept lo hi s.table.size live chains →
      Guarded lo hi s ops → Truthful lo hi s live ops := by
  induction ops with
  | nil => exact fun {s live slots chains} _ _ _ _ => trivial
  | cons op ops ih =>
    intro s live slots chains hsize hs h hg ans s' hcall
    obtain ⟨hright, slots', chains', hs', hsize', h'⟩ :=
      h.call hs hN hN0 hle (fun k => hsize ▸ hlt k) hmono hg.1 hcall
    exact ⟨hright, ih (hsize'.trans hsize) hs' h' (hg.2 ans s' hcall)⟩

end Kept

theorem Trained.kept {data : List (K × V)} {s : TableState K V N} (h : Trained data s)
    {lo hi : K → ℕ} (hw : Windows lo hi s.table.size) :
    Kept lo hi s.table.size {k | ∃ v, (k, v) ∈ data}
      (fun i => [SubModel.block N (storable data) i]) := by
  have hmem : ∀ i, ∀ e ∈ [SubModel.block N (storable data) i].flatten, e ∈ data ∧ e.1 < ⊤ :=
    fun i e he => by
      rw [List.flatten_singleton] at he
      exact mem_storable.mp (List.mem_of_mem_drop (List.mem_of_mem_take he))
  refine ⟨fun i _ e he => (hmem i e he).2, fun i _ e he hlo => ?_,
    fun i _ e he _ => ⟨e.2, (hmem i e he).1⟩⟩
  have hx := (hmem i e he).2
  rw [List.flatten_singleton] at he
  obtain ⟨j, hj, rfl, rfl⟩ := SubModel.exists_of_mem_block he
  by_contra hlt
  obtain ⟨_, _, hopen, _⟩ := (target_eq_iff (hw.le _ hx)).mp
    (rfl : home (fun i => [SubModel.block N (storable data) i]) lo hi (storable data)[j].1 = _)
  have hopen := hopen.resolve_left (by omega)
  rw [List.headD_cons,
    SubModel.not_opens_block (storable_ascending h.ascending) hj (not_le.mp hlt)] at hopen
  cases hopen

/-- In a run in which the key that marks an empty slot meets no empty slot, every answer `true` is
right. -/
theorem truthful_of_guarded (hN : Even N) (hN0 : 0 < N) {data : List (K × V)} {s : TableState K V N}
    (h : Trained data s) {lo hi : K → ℕ} (hle : ∀ k, lo k ≤ hi k) (hlt : ∀ k, hi k < s.table.size)
    (hmono : Monotone lo) {ops : List (TableOp K V)} (hg : Guarded lo hi s ops) :
    Truthful lo hi s {k | ∃ v, (k, v) ∈ data} ops := by
  obtain ⟨base, hfilled⟩ := h.filled hN0
  exact Kept.truthful hN hN0 hle hlt hmono rfl (hfilled.sound h.ascending)
    (h.kept ⟨fun k _ => hle k, fun k _ => hlt k⟩) hg

theorem truthful_of_guarded_four :
    ∃ s : TableState Key ℕ 2, Trained [(1, 10), (2, 20), (3, 30), (4, 40)] s ∧
    Truthful (fun _ => 0) (fun _ => 1) s {k | ∃ v,
      (k, v) ∈ [((1 : Key), 10), (2, 20), (3, 30), (4, 40)]} [.search ⊤, .insert 5 50, .remove 2,
        .search 2] := by
  have hasc : Ascending [((1 : Key), 10), (2, 20), (3, 30), (4, 40)] := by decide
  have hfresh := LeafAllocator.prealloc_fresh (fun _ => zeroLeaf 2) 200 (by norm_num)
  have hrun : (do
      let q ← SubModel.construct (fun _ => ⟨0, 0, 0, 0⟩) () ()
        [((1 : Key), 10), (2, 20), (3, 30), (4, 40)]
        (LeafAllocator.prealloc (fun _ => zeroLeaf 2) 200 (by norm_num))
      let leaves ← q.1.ltable.chainLeaves q.2 1
      Except.ok (leaves.all fun p => (q.2.leaves p).isfull)) = .ok true := by rfl
  obtain ⟨q, hq, hrun⟩ := bind_eq_ok hrun
  obtain ⟨leaves, hleaves, hfull⟩ := bind_eq_ok hrun
  have htrained : Trained [((1 : Key), 10), (2, 20), (3, 30), (4, 40)]
      (TableState.mk q.1.ltable q.2) :=
    ⟨hasc, Unit, (), (), _, _, q.1, hfresh, hq, rfl⟩
  have hsize := htrained.size (by norm_num)
  refine ⟨_, htrained,
    truthful_of_guarded (by decide) (by norm_num) htrained (fun _ => Nat.zero_le 1)
    (fun _ => by rw [hsize]; decide) (fun _ _ _ => le_rfl) ⟨Or.inr ⟨rfl, leaves, hleaves, ?_⟩,
    fun _ _ _ => ?_⟩⟩
  · exact List.all_eq_true.mp (Except.ok.inj hfull)
  · exact ⟨Or.inl (by decide), fun _ _ _ => ⟨Or.inl (by decide), fun _ _ _ => ⟨Or.inl (by decide),
      fun _ _ _ => trivial⟩⟩⟩

/-- The leaf of 3 has an empty slot, and a search for `Leaf::invalidKey()` finds it. -/
theorem sentinel_found :
    ∃ s : TableState Key ℕ 2, Trained [(1, 10), (2, 20), (3, 30)] s ∧ s.table.size = 2 ∧
    (∃ v, s.call (.search ⊤) 0 1 = .ok (.found (some v), s)) ∧
    ¬Truthful (fun _ => 0) (fun _ => 1) s {k | ∃ v, (k, v) ∈ [((1 : Key), 10), (2, 20), (3, 30)]}
      [.search ⊤] := by
  have hasc : Ascending [((1 : Key), 10), (2, 20), (3, 30)] := by decide
  have hfresh := LeafAllocator.prealloc_fresh (fun _ => zeroLeaf 2) 200 (by norm_num)
  have hrun : (do
      let q ← SubModel.construct (fun _ => ⟨0, 0, 0, 0⟩) () () [((1 : Key), 10), (2, 20), (3, 30)]
        (LeafAllocator.prealloc (fun _ => zeroLeaf 2) 200 (by norm_num))
      let val ← q.1.ltable.search q.2 ⊤ 0 1
      Except.ok val) = .ok (some 0) := by rfl
  obtain ⟨q, hq, hrun⟩ := bind_eq_ok hrun
  obtain ⟨val, hval, hrun⟩ := bind_eq_ok hrun
  obtain rfl := Except.ok.inj hrun
  have htrained : Trained [((1 : Key), 10), (2, 20), (3, 30)] (TableState.mk q.1.ltable q.2) :=
    ⟨hasc, Unit, (), (), _, _, q.1, hfresh, hq, rfl⟩
  have hcall : (TableState.mk q.1.ltable q.2).call (.search ⊤) 0 1 =
      .ok (.found (some 0), TableState.mk q.1.ltable q.2) := by
    rw [TableState.call, hval, ok_bind]
  refine ⟨_, htrained, htrained.size (by norm_num), ⟨0, hcall⟩, fun htruth => ?_⟩
  obtain ⟨v, hv⟩ := (htruth _ _ hcall).1 0 rfl
  have hbelow : ∀ e ∈ [((1 : Key), 10), (2, 20), (3, 30)], e.1 < ⊤ := by decide
  exact lt_irrefl _ (hbelow _ hv)

end Rolex
