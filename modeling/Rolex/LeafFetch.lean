import Rolex.LeafPool

/-!
The memory-node threads that take leaves from the pool. `fetch_and_add` runs under the spin lock; an
`ASSERT` that fails stops the whole process.
-/

namespace Rolex
open Bytes Interleaving Spans LeafPool

inductive FetchPhase where
  | idle
  | locked
  | loaded (res : ℕ)
  | stored (res : ℕ)
  | checked (res : ℕ)
  | unlocked (res : ℕ)
  deriving DecidableEq

namespace FetchPhase

def inside : FetchPhase → Prop
  | locked | loaded _ | stored _ | checked _ => True
  | _ => False

def taken : FetchPhase → Option ℕ
  | stored res | checked res | unlocked res => some res
  | _ => none

end FetchPhase

/-- `returned` are the leaves that calls have returned, with their numbers. -/
structure FetchState where
  mem : Memory
  lock : Bool
  stopped : Bool
  returned : List (ℕ × ℕ)

variable {T : Type}

def fetchStep (memPool S : ℕ) (_ : T) (phase : FetchPhase) (s : FetchState) :
    Option (FetchPhase × FetchState) :=
  if s.stopped then none
  else match phase with
    | .idle => if s.lock then none else some (.locked, { s with lock := true })
    | .locked => some (.loaded (wordAt s.mem memPool), s)
    | .loaded res => some (.stored res,
        { s with mem := s.mem.write memPool (toBytes 8 ((res + 1) % 2 ^ 64)) })
    -- `ASSERT(res_add == read_res)`
    | .stored res =>
      if (res + 1) % 2 ^ 64 = wordAt s.mem memPool then some (.checked res, s)
        else some (.idle, { s with stopped := true })
    | .checked res => some (.unlocked res, { s with lock := false })
    -- `ASSERT(num < allocated_num())`
    | .unlocked res =>
      if res < wordAt s.mem (memPool + 8) then
        some (.idle, { s with returned := s.returned ++ [(res, leafPtr memPool S res)] })
      else some (.idle, { s with stopped := true })

def fetchStart (mem : Memory) : Config T FetchPhase FetchState :=
  ⟨fun _ => .idle, ⟨mem, false, false, []⟩⟩

/-- Every number below the counter was taken once, by a call that is under way or has returned
it. -/
structure Fetched (memPool S leafNum : ℕ) (m₀ : Memory)
    (c : Config T FetchPhase FetchState) : Prop where
  guarded : Guarded FetchPhase.inside c.shared.lock c.pc
  current : ∀ t res, c.pc t = .loaded res → res = wordAt c.shared.mem memPool
  below : ∀ t n, (c.pc t).taken = some n → n < wordAt c.shared.mem memPool
  once : ∀ t u n, (c.pc t).taken = some n → (c.pc u).taken = some n → t = u
  fresh : ∀ t n, (c.pc t).taken = some n → n ∉ c.shared.returned.map Prod.fst
  nodup : (c.shared.returned.map Prod.fst).Nodup
  leaves : ∀ r ∈ c.shared.returned, r.1 < wordAt c.shared.mem memPool ∧ r.1 < leafNum ∧
    r.2 = leafPtr memPool S r.1
  covered : c.shared.stopped = false → ∀ n < wordAt c.shared.mem memPool,
    n ∈ c.shared.returned.map Prod.fst ∨ ∃ t, (c.pc t).taken = some n
  frame : ∀ p, p < memPool ∨ memPool + 8 ≤ p → c.shared.mem p = m₀ p
  allocated : wordAt m₀ (memPool + 8) = leafNum

namespace Fetched

variable {memPool S leafNum : ℕ} {m₀ : Memory} {c : Config T FetchPhase FetchState}

theorem allocated_eq (h : Fetched memPool S leafNum m₀ c) :
    wordAt c.shared.mem (memPool + 8) = leafNum :=
  (wordAt_congr fun q hq _ => h.frame q (Or.inr hq)).trans h.allocated

/-- Past the last leaf the counter is ahead by the threads that are under way only. -/
theorem used_le [Fintype T] (h : Fetched memPool S leafNum m₀ c) (hrun : c.shared.stopped = false) :
    wordAt c.shared.mem memPool ≤ leafNum + Fintype.card T := by
  have hsub : Finset.Ico leafNum (wordAt c.shared.mem memPool) ⊆
      Finset.univ.image fun t => ((c.pc t).taken).getD 0 := by
    intro n hn
    obtain ⟨hge, hlt⟩ := Finset.mem_Ico.mp hn
    obtain hret | ⟨t, ht⟩ := h.covered hrun n hlt
    · obtain ⟨r, hr, rfl⟩ := List.mem_map.mp hret
      exact absurd (h.leaves r hr).2.1 hge.not_gt
    · exact Finset.mem_image.mpr ⟨t, Finset.mem_univ t, by rw [ht]; rfl⟩
  have hcard := (Finset.card_le_card hsub).trans Finset.card_image_le
  rw [Nat.card_Ico, Finset.card_univ] at hcard
  omega

variable [DecidableEq T] {t : T} {p : FetchPhase}

theorem taken_update {u : T} {n : ℕ} (hu : (Function.update c.pc t p u).taken = some n) :
    u = t ∧ p.taken = some n ∨ u ≠ t ∧ (c.pc u).taken = some n := by
  by_cases hut : u = t
  · subst hut
    rw [Function.update_self] at hu
    exact Or.inl ⟨rfl, hu⟩
  · rw [Function.update_of_ne hut] at hu
    exact Or.inr ⟨hut, hu⟩

theorem loaded_update {u : T} {res : ℕ} (hp : p ≠ .loaded res)
    (hu : Function.update c.pc t p u = .loaded res) : u ≠ t ∧ c.pc u = .loaded res := by
  by_cases hut : u = t
  · subst hut
    rw [Function.update_self] at hu
    exact absurd hu hp
  · rw [Function.update_of_ne hut] at hu
    exact ⟨hut, hu⟩

theorem keep (h : Fetched memPool S leafNum m₀ c) {lock stopped : Bool}
    (hg : Guarded FetchPhase.inside lock (Function.update c.pc t p))
    (hload : ∀ res, p = .loaded res → res = wordAt c.shared.mem memPool)
    (htaken : ∀ n, p.taken = some n → (c.pc t).taken = some n)
    (hkeep : stopped = false → c.shared.stopped = false ∧ p.taken = (c.pc t).taken) :
    Fetched memPool S leafNum m₀ ⟨Function.update c.pc t p,
      { c.shared with lock := lock, stopped := stopped }⟩ := by
  have hold : ∀ u n, (Function.update c.pc t p u).taken = some n → (c.pc u).taken = some n := by
    intro u n hu
    obtain ⟨rfl, hp⟩ | ⟨_, hu⟩ := taken_update hu
    · exact htaken n hp
    · exact hu
  refine ⟨hg, fun u res hu => ?_, fun u n hu => h.below u n (hold u n hu),
    fun u v n hu hv => h.once u v n (hold u n hu) (hold v n hv),
    fun u n hu => h.fresh u n (hold u n hu), h.nodup, h.leaves, fun hrun n hn => ?_, h.frame,
    h.allocated⟩
  · by_cases hut : u = t
    · subst hut
      dsimp only at hu
      rw [Function.update_self] at hu
      exact hload res hu
    · dsimp only at hu
      rw [Function.update_of_ne hut] at hu
      exact h.current u res hu
  · obtain ⟨hrun, hsame⟩ := hkeep hrun
    obtain hret | ⟨u, hu⟩ := h.covered hrun n hn
    · exact Or.inl hret
    · refine Or.inr ⟨u, ?_⟩
      dsimp only
      by_cases hut : u = t
      · subst hut
        rw [Function.update_self, hsame]
        exact hu
      · rw [Function.update_of_ne hut]
        exact hu

theorem take (h : Fetched memPool S leafNum m₀ c) {res : ℕ} (ht : c.pc t = .loaded res)
    (hres : res + 1 < 2 ^ 64) : Fetched memPool S leafNum m₀ ⟨Function.update c.pc t (.stored res),
      { c.shared with mem := c.shared.mem.write memPool (toBytes 8 ((res + 1) % 2 ^ 64)) }⟩ := by
  have hcur := h.current t res ht
  have hword : wordAt (c.shared.mem.write memPool (toBytes 8 ((res + 1) % 2 ^ 64))) memPool =
      res + 1 := by
    rw [Nat.mod_eq_of_lt hres]
    exact wordAt_write_self _ _ hres
  have hin : (c.pc t).inside := by
    rw [ht]
    trivial
  refine ⟨h.guarded.move fun _ => hin, fun u x hu => ?_, fun u n hu => ?_, fun u v n hu hv => ?_,
    fun u n hu => ?_, h.nodup, fun r hr => ?_, fun hrun n hn => ?_, fun p hp => ?_, h.allocated⟩
  · obtain ⟨hut, hu⟩ := loaded_update FetchPhase.noConfusion hu
    exact absurd (h.guarded.one u t (by rw [hu]; trivial) hin) hut
  · dsimp only
    rw [hword]
    obtain ⟨rfl, hp⟩ | ⟨_, hu⟩ := taken_update hu
    · obtain rfl := Option.some.inj hp
      exact Nat.lt_succ_self _
    · have hlt := h.below u n hu
      omega
  · obtain ⟨rfl, hp⟩ | ⟨_, hu'⟩ := taken_update hu <;> obtain ⟨rfl, hq⟩ | ⟨_, hv'⟩ :=
      taken_update hv
    · rfl
    · obtain rfl := Option.some.inj hp
      exact absurd (h.below v _ hv') (by omega)
    · obtain rfl := Option.some.inj hq
      exact absurd (h.below u _ hu') (by omega)
    · exact h.once u v n hu' hv'
  · obtain ⟨rfl, hp⟩ | ⟨_, hu⟩ := taken_update hu
    · obtain rfl := Option.some.inj hp
      intro hret
      obtain ⟨r, hr, heq⟩ := List.mem_map.mp hret
      have hlt := (h.leaves r hr).1
      omega
    · exact h.fresh u n hu
  · obtain ⟨hlt, hrest⟩ := h.leaves r hr
    refine ⟨?_, hrest⟩
    dsimp only
    rw [hword]
    omega
  · dsimp only at hn ⊢
    rw [hword] at hn
    by_cases hnr : n = res
    · exact Or.inr ⟨t, by rw [Function.update_self, hnr]; rfl⟩
    · obtain hret | ⟨u, hu⟩ := h.covered hrun n (by omega)
      · exact Or.inl hret
      · refine Or.inr ⟨u, ?_⟩
        have hut : u ≠ t := fun hut => by
          rw [hut, ht] at hu
          cases hu
        rw [Function.update_of_ne hut]
        exact hu
  · dsimp only
    rw [Memory.write_outside _ _ (by rw [length_toBytes]; exact hp)]
    exact h.frame p hp

theorem give (h : Fetched memPool S leafNum m₀ c) {res : ℕ} (ht : c.pc t = .unlocked res)
    (hres : res < leafNum) : Fetched memPool S leafNum m₀ ⟨Function.update c.pc t .idle,
      { c.shared with returned := c.shared.returned ++ [(res, leafPtr memPool S res)] }⟩ := by
  have htaken : (c.pc t).taken = some res := by
    rw [ht]
    rfl
  have hmap : (c.shared.returned ++ [(res, leafPtr memPool S res)]).map Prod.fst =
      c.shared.returned.map Prod.fst ++ [res] := by
    rw [List.map_append]
    rfl
  have hother : ∀ u n, (Function.update c.pc t FetchPhase.idle u).taken = some n →
      u ≠ t ∧ (c.pc u).taken = some n := by
    intro u n hu
    obtain ⟨rfl, hp⟩ | hu := taken_update hu
    · cases hp
    · exact hu
  refine ⟨h.guarded.move fun hin => hin.elim, fun u x hu => ?_,
    fun u n hu => h.below u n (hother u n hu).2,
    fun u v n hu hv => h.once u v n (hother u n hu).2 (hother v n hv).2, fun u n hu => ?_, ?_,
    fun r hr => ?_, fun hrun n hn => ?_, h.frame, h.allocated⟩
  · exact h.current u x (loaded_update FetchPhase.noConfusion hu).2
  · obtain ⟨hut, hu'⟩ := hother u n hu
    dsimp only
    rw [hmap, List.mem_append, List.mem_singleton]
    rintro (hret | rfl)
    · exact h.fresh u n hu' hret
    · exact hut (h.once u t n hu' htaken)
  · dsimp only
    rw [hmap, ← List.concat_eq_append]
    exact h.nodup.concat (h.fresh t res htaken)
  · rcases List.mem_append.mp hr with hr | hr
    · exact h.leaves r hr
    · rw [List.mem_singleton.mp hr]
      exact ⟨h.below t res htaken, hres, rfl⟩
  · dsimp only
    rw [hmap, List.mem_append, List.mem_singleton]
    obtain hret | ⟨u, hu⟩ := h.covered hrun n hn
    · exact Or.inl (Or.inl hret)
    · by_cases hut : u = t
      · subst hut
        exact Or.inl (Or.inr (Option.some.inj (hu.symm.trans htaken)))
      · refine Or.inr ⟨u, ?_⟩
        rw [Function.update_of_ne hut]
        exact hu

theorem step [Fintype T] (h : Fetched memPool S leafNum m₀ c)
    (hroom : leafNum + Fintype.card T + 1 < 2 ^ 64) {s : FetchState}
    (hn : fetchStep memPool S t (c.pc t) c.shared = some (p, s)) :
    Fetched memPool S leafNum m₀ ⟨Function.update c.pc t p, s⟩ := by
  cases hstop : c.shared.stopped with
  | true =>
    unfold fetchStep at hn
    rw [if_pos hstop] at hn
    cases hn
  | false =>
    unfold fetchStep at hn
    rw [if_neg (by rw [hstop]; exact Bool.false_ne_true)] at hn
    cases hpc : c.pc t with
    | idle =>
      rw [hpc] at hn
      dsimp only at hn
      have hg := h.guarded
      cases hlock : c.shared.lock with
      | true =>
        rw [hlock, if_pos rfl] at hn
        cases hn
      | false =>
        rw [hlock] at hg
        rw [hlock, if_neg Bool.false_ne_true] at hn
        cases hn
        exact h.keep (hg.acquire t .locked) (fun _ hp => by cases hp) (fun _ hp => by cases hp)
          fun _ => ⟨hstop, by rw [hpc]; rfl⟩
    | locked =>
      rw [hpc] at hn
      cases hn
      exact h.keep (h.guarded.move fun _ => by rw [hpc]; trivial)
        (fun _ hp => (FetchPhase.loaded.inj hp).symm) (fun _ hp => by cases hp) fun _ =>
        ⟨hstop, by rw [hpc]; rfl⟩
    | loaded res =>
      rw [hpc] at hn
      cases hn
      have hused := h.used_le hstop
      have hcur := h.current t res hpc
      exact h.take hpc (by omega)
    | stored res =>
      rw [hpc] at hn
      dsimp only at hn
      split at hn <;> cases hn
      · exact h.keep (h.guarded.move fun _ => by rw [hpc]; trivial) (fun _ hp => by cases hp)
          (fun n hp => by rw [hpc]; exact hp) fun _ => ⟨hstop, by rw [hpc]; rfl⟩
      · exact h.keep (h.guarded.move fun hin => hin.elim) (fun _ hp => by cases hp)
          (fun _ hp => by cases hp) fun hrun => absurd hrun.symm Bool.false_ne_true
    | checked res =>
      rw [hpc] at hn
      cases hn
      exact h.keep (h.guarded.release (by rw [hpc]; trivial) not_false) (fun _ hp => by cases hp)
        (fun n hp => by rw [hpc]; exact hp) fun _ => ⟨hstop, by rw [hpc]; rfl⟩
    | unlocked res =>
      rw [hpc] at hn
      dsimp only at hn
      rw [h.allocated_eq] at hn
      split at hn <;> cases hn
      · exact h.give hpc ‹_›
      · exact h.keep (h.guarded.move fun hin => hin.elim) (fun _ hp => by cases hp)
          (fun _ hp => by cases hp) fun hrun => absurd hrun.symm Bool.false_ne_true

omit [DecidableEq T] in
theorem start {leaf : LeafType} {t : ℕ} {mem : Memory} {addrs : List ℕ}
    (h : Preallocated leaf memPool t leafNum mem addrs) :
    Fetched memPool S leafNum mem (fetchStart (T := T) mem) where
  guarded := ⟨fun _ hin => hin.elim, fun _ _ hin => hin.elim⟩
  current _ _ hl := by cases hl
  below _ _ ht := by cases ht
  once _ _ _ ht := by cases ht
  fresh _ _ ht := by cases ht
  nodup := List.nodup_nil
  leaves _ hr := absurd hr List.not_mem_nil
  covered _ n hn := absurd hn
    (by rw [show wordAt (fetchStart (T := T) mem).shared.mem memPool = 0 from h.used]; omega)
  frame _ _ := rfl
  allocated := h.allocated

end Fetched

/-! ### The allocator by numbers -/

section Numbers

variable {K V : Type} {N memPool S : ℕ} {alloc alloc' : LeafAllocator K V N}

structure SameWords (memPool : ℕ) (mem : Memory) (alloc : LeafAllocator K V N) : Prop where
  used : wordAt mem memPool = alloc.used
  allocated : wordAt mem (memPool + 8) = alloc.allocated

theorem SameWords.getLeaf {mem : Memory} (h : SameWords memPool mem alloc) {num p : ℕ}
    (hok : alloc.getLeaf num = .ok p) :
    LeafPool.getLeaf memPool S mem num = .ok (leafPtr memPool S p) := by
  unfold LeafAllocator.getLeaf at hok
  split at hok
  · cases hok
  split at hok <;> cases hok
  rw [LeafPool.getLeaf, h.used, if_pos (by omega)]

structure Resting (memPool : ℕ) (c : Config T FetchPhase FetchState) (alloc : LeafAllocator K V N) :
    Prop where
  words : SameWords memPool c.shared.mem alloc
  idle : ∀ t, c.pc t = .idle
  running : c.shared.stopped = false
  free : c.shared.lock = false

theorem LeafPool.Preallocated.resting [LinearOrder K] [OrderTop K] {leaf : LeafType} {t leafNum : ℕ}
    {mem : Memory} {addrs : List ℕ} (h : Preallocated leaf memPool t leafNum mem addrs)
    (raw : ℕ → Leaf K V N) (hle : leafNum ≤ 2 ^ 48) :
    Resting memPool (fetchStart (T := T) mem) (LeafAllocator.prealloc raw leafNum hle) :=
  ⟨⟨h.used, h.allocated⟩, fun _ => rfl, rfl, rfl⟩

/-- A call that runs alone takes the leaf that the allocator hands out. -/
theorem Resting.fetchNewLeaf [DecidableEq T] {c : Config T FetchPhase FetchState}
    (h : Resting memPool c alloc) (t : T) {num : ℕ}
    (hok : alloc.fetchNewLeaf = .ok (num, alloc')) :
    ∃ c', c.run (fetchStep memPool S) [t, t, t, t, t, t] = some c' ∧ Resting memPool c' alloc' ∧
      c'.shared.returned = c.shared.returned ++ [(num, leafPtr memPool S num)] := by
  obtain ⟨hlt, hres⟩ := LeafAllocator.fetchNewLeaf_eq_ok hok
  obtain ⟨rfl, rfl⟩ := Prod.mk.inj hres
  have hbound := alloc.addressable
  have hsmall : alloc.used + 1 < 2 ^ 64 := by omega
  have hword := wordAt_write_self c.shared.mem memPool hsmall
  have hother : wordAt (c.shared.mem.write memPool (toBytes 8 (alloc.used + 1))) (memPool + 8) =
      alloc.allocated := by
    rw [wordAt_congr fun q hq _ =>
      Memory.write_outside _ _ (Or.inr (by rw [length_toBytes]; exact hq)), h.words.allocated]
  refine ⟨⟨Function.update c.pc t .idle,
    ⟨c.shared.mem.write memPool (toBytes 8 (alloc.used + 1)), false, false,
      c.shared.returned ++ [(alloc.used, leafPtr memPool S alloc.used)]⟩⟩, ?_,
    ⟨⟨hword, hother⟩, fun u => ?_, rfl, rfl⟩, rfl⟩
  · simp [Config.run, Config.step, fetchStep, h.idle, h.running, h.free, h.words.used,
      Nat.mod_eq_of_lt hsmall, hword, hother, hlt, -Nat.reducePow]
  · dsimp only
    by_cases hut : u = t
    · rw [hut, Function.update_self]
    · rw [Function.update_of_ne hut, h.idle u]

end Numbers

/-! ### Every run on a preallocated pool -/

def leafSpan (S : ℕ) (r : ℕ × ℕ) : Span ℕ := ⟨r.2, r.2 + S⟩

def headerSpans (memPool : ℕ) : List (Span ℕ) :=
  [⟨memPool, memPool + 8⟩, ⟨memPool + 8, memPool + 16⟩]

/-- What the calls have returned: new leaves, at the address where each was constructed and where
its other readers look for it, apart from each other and from the header, and in the pool. -/
structure HandedOut (leaf : LeafType) (memPool t : ℕ) (addrs : List ℕ) (s : FetchState) : Prop where
  once : (s.returned.map Prod.fst).Nodup
  constructed : ∀ r ∈ s.returned, addrs[r.1]? = some r.2
  getLeaf : ∀ r ∈ s.returned, LeafPool.getLeaf memPool leaf.size s.mem r.1 = .ok r.2
  remote : ∀ r ∈ s.returned, r.2 = memPool + remoteLeafOffsets leaf.size r.1
  apart : (headerSpans memPool ++ s.returned.map (leafSpan leaf.size)).Pairwise Apart
  inside : ∀ r ∈ s.returned, (leafSpan leaf.size r).points ⊆ Set.Ico memPool (memPool + t)

theorem Fetched.handedOut {leaf : LeafType} {memPool t leafNum : ℕ} {m₀ : Memory} {addrs : List ℕ}
    {c : Config T FetchPhase FetchState} (h : Fetched memPool leaf.size leafNum m₀ c)
    (hpre : Preallocated leaf memPool t leafNum m₀ addrs) (ht : t < 2 ^ 64) :
    HandedOut leaf memPool t addrs c.shared := by
  have hat : ∀ r ∈ c.shared.returned, r.1 < leafNum ∧ 16 + r.1 * leaf.size + leaf.size ≤ t ∧
      r.2 = memPool + (16 + r.1 * leaf.size) := by
    intro r hr
    obtain ⟨-, hnum, hptr⟩ := h.leaves r hr
    have hin := hpre.inside r.1 hnum
    exact ⟨hnum, hin, by rw [hptr, leafPtr_eq (by omega)]⟩
  refine ⟨h.nodup, fun r hr => ?_, fun r hr => ?_, fun r hr => ?_, ?_, fun r hr => ?_⟩
  · obtain ⟨hnum, -, hptr⟩ := hat r hr
    rw [hpre.ptr r.1 hnum, hptr]
  · obtain ⟨hused, -, hptr⟩ := h.leaves r hr
    rw [LeafPool.getLeaf, if_pos hused.le, hptr]
  · obtain ⟨-, hin, hptr⟩ := hat r hr
    rw [remoteLeafOffsets_eq (by omega), hptr]
  · rw [List.pairwise_append]
    refine ⟨?_, ?_, ?_⟩
    · exact List.pairwise_pair.mpr (apart_of_le le_rfl)
    · -- leaves of different numbers are a whole leaf apart
      rw [List.pairwise_map]
      refine (List.pairwise_map.mp h.nodup).imp_of_mem fun {r r'} hr hr' hne => ?_
      obtain ⟨-, -, hptr⟩ := hat r hr
      obtain ⟨-, -, hptr'⟩ := hat r' hr'
      have hsucc : ∀ a b : ℕ, a < b → a * leaf.size + leaf.size ≤ b * leaf.size := fun a b hab => by
        rw [← Nat.succ_mul]
        exact Nat.mul_le_mul_right _ hab
      obtain hlt | hgt := Nat.lt_or_gt_of_ne hne
      · have hle := hsucc _ _ hlt
        exact apart_of_le (by change r.2 + leaf.size ≤ r'.2; omega)
      · have hle := hsucc _ _ hgt
        exact (apart_of_le (s := leafSpan leaf.size r')
          (by change r'.2 + leaf.size ≤ r.2; omega)).symm
    · intro head hhead body hbody
      obtain ⟨r, hr, rfl⟩ := List.mem_map.mp hbody
      obtain ⟨-, -, hptr⟩ := hat r hr
      have hbefore : head.hi ≤ memPool + 16 := by
        unfold headerSpans at hhead
        fin_cases hhead <;> dsimp only <;> omega
      exact apart_of_le (hbefore.trans (by change memPool + 16 ≤ r.2; omega))
  · obtain ⟨-, hin, hptr⟩ := hat r hr
    exact Set.Ico_subset_Ico (by change memPool ≤ r.2; omega)
      (by change r.2 + leaf.size ≤ memPool + t; omega)

/-- A pool that passes the `ASSERT` holds all its leaves, and whatever the threads do, each call
that returns hands out one of them that no call has returned before. Each thread has a stack in the
address space, so there are fewer than `2 ^ 63`. -/
theorem construct_handedOut [Fintype T] [DecidableEq T] (hT : Fintype.card T < 2 ^ 63)
    (leaf : LeafType) (hS : 16 ≤ leaf.size) {memPool t leafNum : ℕ} (m : Memory) (ht16 : 16 ≤ t)
    (ht : t < 2 ^ 64) (hnum : leafNum < 2 ^ 31) (hpass : Passes leaf.size t leafNum) :
    ∃ pool addrs, construct leaf m memPool t leafNum = .ok (pool, addrs) ∧ addrs.length = leafNum ∧
      (∀ ptr ∈ addrs, memPool + 16 ≤ ptr ∧ ptr + leaf.size ≤ memPool + t ∧
        pool.mem.read ptr leaf.size = leaf.init (m.read ptr leaf.size)) ∧
      ∀ c : Config T FetchPhase FetchState,
      Reaches (fetchStep memPool leaf.size) (fun _ _ => True) (fetchStart pool.mem) c →
        HandedOut leaf memPool t addrs c.shared := by
  obtain ⟨pool, addrs, hok, hpre, hinit⟩ := construct_ok leaf hS memPool m ht16 ht hnum hpass
  refine ⟨pool, addrs, hok, hpre.length, fun ptr hptr => ?_, fun c hc => ?_⟩
  · obtain ⟨n, hn, hget⟩ := List.getElem_of_mem hptr
    have hn' : n < leafNum := hpre.length ▸ hn
    have hin := hpre.inside n hn'
    have hat : ptr = memPool + (16 + n * leaf.size) := by
      have hsome := hpre.ptr n hn'
      rw [List.getElem?_eq_getElem hn, hget] at hsome
      exact Option.some.inj hsome
    exact ⟨by omega, by omega, hinit ptr hptr⟩
  · refine (hc.invariant (Fetched.start hpre) fun c t p s h _ hs => ?_).handedOut hpre ht
    exact h.step (by omega) hs

theorem construct_handedOut_two : ∃ pool addrs, ∃ c : Config Bool FetchPhase FetchState,
    construct (leafOf 64) (fun _ => 0) 4096 3080 2 = .ok (pool, addrs) ∧
    Reaches (fetchStep 4096 1024) (fun _ _ => True) (fetchStart pool.mem) c ∧
    c.shared.returned = [(0, 4112), (1, 5136)] ∧
    HandedOut (leafOf 64) 4096 3080 addrs c.shared := by
  have hpass : Passes (leafOf 64).size 3080 2 := by decide
  obtain ⟨pool, addrs, hok, hpre, _⟩ := construct_ok (leafOf 64) (by decide) 4096 (fun _ => 0)
    (by decide) (by decide) (by decide) hpass
  obtain ⟨_, _, hok', _, _, hall⟩ := construct_handedOut (T := Bool) (by norm_num) (leafOf 64)
    (by decide) (fun _ => 0) (by decide) (by decide) (by decide) hpass
  obtain ⟨rfl, rfl⟩ := Prod.mk.inj (Except.ok.inj (hok.symm.trans hok'))
  let alloc : LeafAllocator (Fin 8) ℕ 2 :=
    LeafAllocator.prealloc (fun _ => ⟨[0, 0], [0, 0], rfl, rfl⟩) 2 (by norm_num)
  have hfirst : alloc.fetchNewLeaf = .ok (0, { alloc with used := 1 }) := rfl
  have hsecond : LeafAllocator.fetchNewLeaf { alloc with used := 1 } =
      .ok (1, { alloc with used := 2 }) := rfl
  have hrest : Resting 4096 (fetchStart (T := Bool) pool.mem) alloc := hpre.resting _ _
  obtain ⟨c₁, hrun₁, hrest₁, hret₁⟩ := hrest.fetchNewLeaf (S := 1024) false hfirst
  obtain ⟨c₂, hrun₂, _, hret₂⟩ := hrest₁.fetchNewLeaf (S := 1024) true hsecond
  have hreach := (Reaches.start.run hrun₁).run hrun₂
  refine ⟨pool, addrs, c₂, hok, hreach, ?_, hall c₂ hreach⟩
  rw [hret₂, hret₁, show leafPtr 4096 1024 0 = 4112 by decide,
    show leafPtr 4096 1024 1 = 5136 by decide]
  rfl

end Rolex
