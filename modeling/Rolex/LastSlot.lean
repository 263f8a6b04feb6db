import Rolex.ConcurrentInsert
import Rolex.MapRefinement

/-! Two inserts at once keep every key unless both have to split a leaf and one
synonym slot is left: then both pass the tests of the slot counter, and the
second `synonym_emplace_back` returns 0, which nobody looks at. The upper half of
its leaf goes to a leaf that is on no chain. -/

namespace Rolex
open AscendingMap BlockChain Interleaving

variable {K V : Type} {N : ℕ} [LinearOrder K] [OrderTop K]

/-! ### What a search finds is on the chain -/

namespace Represents

variable {t : LeafTable} {alloc : LeafAllocator K V N} {slots : ℕ → List ℕ}
  {chains : ℕ → List (List (K × V))} {i : ℕ} {k : K} {v : V}

theorem mem_of_searchFromBack (h : Represents t alloc slots chains) (hi : i < t.size) (hk : k < ⊤)
    {m : ℕ} (hm : m ≤ (slots i).length) (hs : t.searchFromBack alloc k (slots i) m = .ok (some v)) :
    (k, v) ∈ (chains i).flatten := by
  induction m with
  | zero => cases hs
  | succ m ih =>
    have hlen := h.length_chain hi
    obtain ⟨hmem, hleaf⟩ := h.holds_slot hi hm
    rw [LeafTable.searchFromBack, h.slotLeaf_ok hi hmem, ok_bind, Leaf.search_eq hleaf hk] at hs
    cases hl : ((chains i).getD (m + 1) []).lookup k with
    | none =>
      rw [hl] at hs
      exact ih (by omega) hs
    | some w =>
      rw [hl] at hs
      obtain rfl := Option.some.inj (Except.ok.inj hs)
      have hlt : m + 1 < (chains i).length := by omega
      rw [List.getD_eq_getElem _ _ hlt] at hl hleaf
      exact List.mem_flatten.mpr ⟨_, List.getElem_mem hlt,
        (lookup_eq_some hleaf.ascending k w).mp hl⟩

theorem mem_of_searchAt {s : TableState K V N} (h : Represents s.table s.alloc slots chains)
    (hi : i < s.table.size) (hk : k < ⊤) (hs : s.searchAt i k = .ok (some v)) :
    (k, v) ∈ (chains i).flatten := by
  have hf := h.holds i hi
  obtain ⟨b, rest, hc⟩ := List.exists_cons_of_ne_nil (h.chain_ne_nil hi)
  rw [hc, LeafTable.chainNums, List.forall₂_cons] at hf
  rw [TableState.searchAt, h.entryLeaf_ok hi, ok_bind, LeafTable.searchEntry,
    Leaf.search_eq hf.1 hk] at hs
  cases hl : b.lookup k with
  | none =>
    rw [hl] at hs
    simp only [LeafTable.searchSynonym, h.synonymLeaves_ok hi, ok_bind] at hs
    exact h.mem_of_searchFromBack hi hk le_rfl hs
  | some w =>
    rw [hl] at hs
    obtain rfl := Option.some.inj (Except.ok.inj hs)
    rw [hc, List.flatten_cons]
    exact List.mem_append_left _ ((lookup_eq_some hf.1.ascending k w).mp hl)

theorem write_spare {n : ℕ} (h : Represents t alloc slots chains) (hused : n < alloc.used)
    (hunlinked : ∀ j < t.size, n ∉ t.chainNums j (slots j)) (leaf : Leaf K V N) :
    Represents t (alloc.write n leaf) slots chains := by
  refine h.congr_alloc rfl le_rfl h.usedLe (fun j hj p hp => alloc.write_leaves_ne ?_ leaf)
    fun p hp => alloc.write_leaves_ne ?_ leaf
  · rintro rfl
    exact hunlinked j hj hp
  · rintro rfl
    exact absurd hused (not_lt.mpr hp)

end Represents

/-! ### The call that finds no slot -/

/-- The rest of a call whose leaf was not linked: of the full block `b` the lower half stays on the
chain, with the new key or without it. -/
theorem exists_half_lost {call : InsertCall K V} {s : TableState K V N} {slots : ℕ → List ℕ}
    {chains : ℕ → List (List (K × V))} (h : Represents s.table s.alloc slots chains) (hN : Even N)
    (hN0 : 0 < N) (hi : call.lIdx < s.table.size) (hk : call.key < ⊤)
    {pre post : List (List (K × V))} {b : List (K × V)} {npre npost : List ℕ} {cur n : ℕ}
    (idx : Option ℕ) (hnums : s.table.chainNums call.lIdx (slots call.lIdx) = npre ++ cur :: npost)
    (hchain : chains call.lIdx = pre ++ b :: post) (hlen : npre.length = pre.length)
    (hnone : b.lookup call.key = none) (hfull : b.length = N)
    (hspare : Spare s.table s.alloc slots n) (hlast : s.table.available = kSynonymMax - 1) :
    ∃ s₁ cur' s₂ s₃ b', insertSynonymStep call s (.fetched cur idx n) = some (.emplaced cur n, s) ∧
      insertSynonymStep call s (.emplaced cur n) = some (.halved cur n, s₁) ∧
      insertSynonymStep call s₁ (.halved cur n) = some (.placing cur', s₁) ∧
      insertSynonymStep call s₁ (.placing cur') = some (.unlocking true, s₂) ∧
      insertSynonymStep call s₂ (.unlocking true) = some (.returned true, s₃) ∧
      s₃.table.size = s.table.size ∧
      Represents s₃.table s₃.alloc slots (Function.update chains call.lIdx (pre ++ b' :: post)) ∧
      ∀ e ∈ b', e.1 = call.key ∨ e ∈ b.take (N / 2) := by
  have hemplace : s.table.emplaceBehind call.lIdx idx n = .ok (0, s.table) := by
    cases idx with
    | none => exact LeafTable.synonymEmplaceBack_full hlast true call.lIdx n
    | some q => exact LeafTable.synonymEmplaceBack_full hlast false q n
  obtain ⟨hlow, hup⟩ := Leaf.moveHalf_holds (h.holds_mid hi hnums hchain hlen) hspare.blank hN hfull
  set halves := Leaf.moveHalf (s.alloc.leaves cur) (s.alloc.leaves n) with hhalves
  have hcn : cur ≠ n := by
    rintro rfl
    exact hspare.unlinked _ hi (by rw [hnums]; simp)
  set alloc₁ := (s.alloc.write cur halves.1).write n halves.2 with halloc₁
  have h₁ : Represents s.table alloc₁ slots
      (Function.update chains call.lIdx (pre ++ b.take (N / 2) :: post)) :=
    (h.write hi hnums hchain hlen hlow).write_spare hspare.used hspare.unlinked halves.2
  have hcur₁ : alloc₁.leaves cur = halves.1 := by
    rw [halloc₁, LeafAllocator.write_leaves_ne _ hcn, LeafAllocator.write_leaves_self]
  obtain ⟨cur', b', hplace, hb'⟩ : ∃ cur' b',
      (cur' = if (alloc₁.leaves n).insertHere call.key then n else cur) ∧
      Represents s.table (alloc₁.write cur'
      ((alloc₁.leaves cur').insertNotFull call.key call.val).2) slots
        (Function.update chains call.lIdx (pre ++ b' :: post)) ∧
      ∀ e ∈ b', e.1 = call.key ∨ e ∈ b.take (N / 2) := by
    by_cases hhere : (alloc₁.leaves n).insertHere call.key = true
    · exact ⟨n, b.take (N / 2), (if_pos hhere).symm,
        h₁.write_spare hspare.used hspare.unlinked _, fun e he => Or.inr he⟩
    · have hN2 : N / 2 < N := Nat.div_lt_self hN0 (by norm_num)
      have hnone' : (b.take (N / 2)).lookup call.key = none :=
        lookup_eq_none.mpr fun e he => lookup_eq_none.mp hnone e (List.mem_of_mem_take he)
      refine ⟨cur, put call.key call.val (b.take (N / 2)), (if_neg hhere).symm, ?_, fun e he => ?_⟩
      · have hput := Leaf.insertNotFull_holds hlow hk hnone'
          (by rw [List.length_take]; omega) call.val
        rw [← hcur₁] at hput
        have hw := h₁.write hi hnums (Function.update_self ..) hlen hput
        rwa [Function.update_idem] at hw
      · rcases mem_put.mp he with rfl | he
        · exact Or.inl rfl
        · exact Or.inr he
  refine ⟨⟨s.table, alloc₁⟩, cur', _, _, b', ?_, rfl, ?_, rfl, rfl, rfl, ?_, hb'.2⟩
  · rw [insertSynonymStep, hemplace]
    rfl
  · rw [insertSynonymStep, hplace]
  · exact hb'.1.congr rfl rfl rfl rfl

namespace Underway

variable {s₀ : TableState K V N} {calls : Bool → InsertCall K V} {slots₀ : ℕ → List ℕ}
  {bs : ℕ → List (List (K × V))} {c₀ c : Config Bool InsertPhase (TableState K V N)}
  {slots : ℕ → List ℕ} {chains : ℕ → List (List (K × V))} {x : Bool}

theorem reach (h : Underway s₀ calls bs c slots chains) (hr : Ready s₀ calls slots₀ bs)
    (hreach : Reaches (twoInserts calls) (fun _ _ => True) c₀ c) {p q : InsertPhase}
    (hp : c.pc x = q) {s' : TableState K V N} {slots' : ℕ → List ℕ}
    {chains' : ℕ → List (List (K × V))} (hn : twoInserts calls x q c.shared = some (p, s'))
    (m : Moves s₀ calls bs c slots chains x p s' slots' chains') :
    ∃ c', Reaches (twoInserts calls) (fun _ _ => True) c₀ c' ∧
      Underway s₀ calls bs c' slots' chains' ∧
      c'.pc x = p ∧ (c'.pc !x) = (c.pc !x) ∧ c'.shared = s' := by
  refine ⟨_, hreach.step trivial (step_of_next (hp.symm ▸ hn)), h.advance hr m,
    Function.update_self .., Function.update_of_ne ?_ .., rfl⟩
  cases x <;> decide

theorem reach_splitting (h : Underway s₀ calls bs c slots chains) (hr : Ready s₀ calls slots₀ bs)
    (hN0 : 0 < N) (hreach : Reaches (twoInserts calls) (fun _ _ => True) c₀ c)
    (hp : c.pc x = .start) (hsplit : MustSplit N (calls x).key (bs (calls x).lIdx))
    (hroom : c.shared.table.available < kSynonymMax - 1) :
    ∃ c' cur idx, Reaches (twoInserts calls) (fun _ _ => True) c₀ c' ∧
      Underway s₀ calls bs c' slots chains ∧
      c'.pc x = .splitting cur idx ∧ (c'.pc !x) = (c.pc !x) ∧
      c'.shared.table.available = c.shared.table.available := by
  obtain ⟨_, hn, m, hpass⟩ := h.next_start hp
  obtain ⟨c₁, hreach, h₁, hp, ho₁, hs₁⟩ := h.reach hr hreach hp hn m
  rw [hpass hroom] at hp
  obtain ⟨_, hn, _, hav, m⟩ := h₁.next_locking hp
  obtain ⟨c₂, hreach, h₂, hp, ho₂, hs₂⟩ := h₁.reach hr hreach hp hn m
  obtain ⟨hn, m⟩ := h₂.next_locked hr hp
  obtain ⟨c₃, hreach, h₃, hp, ho₃, hs₃⟩ := h₂.reach hr hreach hp hn m
  obtain ⟨cur, idx, hn, m⟩ := h₃.next_walked hr hp
  obtain ⟨c₄, hreach, h₄, hp, ho₄, hs₄⟩ := h₃.reach hr hreach hp hn m
  obtain ⟨_, hn, m, habsent⟩ := h₄.next_picked hr hp
  obtain ⟨c₅, hreach, h₅, hp, ho₅, hs₅⟩ := h₄.reach hr hreach hp hn m
  rw [habsent hsplit] at hp
  obtain ⟨_, hn, m, hfull⟩ := h₅.next_absent hr hN0 hp
  obtain ⟨c₆, hreach, h₆, hp, ho₆, hs₆⟩ := h₅.reach hr hreach hp hn m
  rw [hfull hsplit] at hp
  have hsame : c₆.shared.table.available = c.shared.table.available := by
    rw [hs₆, hs₅, hs₄, hs₃, hs₂, hav, hs₁]
  obtain ⟨_, hn, m, hpass⟩ := h₆.next_full hp
  obtain ⟨c₇, hreach, h₇, hp, ho₇, hs₇⟩ := h₆.reach hr hreach hp hn m
  rw [hpass (hsame ▸ hroom)] at hp
  refine ⟨c₇, cur, idx, hreach, h₇, hp, ?_, hs₇ ▸ hsame⟩
  rw [ho₇, ho₆, ho₅, ho₄, ho₃, ho₂, ho₁]

theorem reach_returned (h : Underway s₀ calls bs c slots chains) (hr : Ready s₀ calls slots₀ bs)
    (hN : Even N) (hN0 : 0 < N) (hreach : Reaches (twoInserts calls) (fun _ _ => True) c₀ c)
    {cur : ℕ} {idx : Option ℕ} (hp : c.pc x = .splitting cur idx)
    (hroom : c.shared.table.available < kSynonymMax - 1) :
    ∃ c' slots' chains', Reaches (twoInserts calls) (fun _ _ => True) c₀ c' ∧
      Underway s₀ calls bs c' slots' chains' ∧ c'.pc x = .returned true ∧ (c'.pc !x) = (c.pc !x) ∧
      c'.shared.table.available = c.shared.table.available + 1 := by
  obtain ⟨n, _, hn, ht₁, m⟩ := h.next_splitting hr hp
  obtain ⟨c₁, hreach, h₁, hp, ho₁, hs₁⟩ := h.reach hr hreach hp hn m
  rw [← hs₁] at ht₁
  obtain ⟨_, slots₂, chains₂, hn, hav₂, m⟩ := h₁.next_fetched hr hp (by rw [ht₁]; exact hroom)
  obtain ⟨c₂, hreach, h₂, hp, ho₂, hs₂⟩ := h₁.reach hr hreach hp hn m
  obtain ⟨_, chains₃, hn, ht₃, m⟩ := h₂.next_emplaced hr hN hp
  obtain ⟨c₃, hreach, h₃, hp, ho₃, hs₃⟩ := h₂.reach hr hreach hp hn m
  obtain ⟨_, hn, m⟩ := h₃.next_halved hr hN hN0 hp
  obtain ⟨c₄, hreach, h₄, hp, ho₄, hs₄⟩ := h₃.reach hr hreach hp hn m
  obtain ⟨_, chains₅, hn, ht₅, m⟩ := h₄.next_placing hr hp
  obtain ⟨c₅, hreach, h₅, hp, ho₅, hs₅⟩ := h₄.reach hr hreach hp hn m
  obtain ⟨_, hn, hav₆, m⟩ := h₅.next_unlocking hp
  obtain ⟨c₆, hreach, h₆, hp, ho₆, hs₆⟩ := h₅.reach hr hreach hp hn m
  refine ⟨c₆, slots₂, chains₅, hreach, h₆, hp, ?_, ?_⟩
  · rw [ho₆, ho₅, ho₄, ho₃, ho₂, ho₁]
  · rw [hs₆, hav₆, hs₅, ht₅, hs₄, hs₃, ht₃, hs₂, hav₂, ht₁]

/-- Without a slot the call loses the upper half of its leaf. -/
theorem reach_lost (h : Underway s₀ calls bs c slots chains) (hr : Ready s₀ calls slots₀ bs)
    (hN : Even N) (hN0 : 0 < N) (hreach : Reaches (twoInserts calls) (fun _ _ => True) c₀ c)
    {cur : ℕ} {idx : Option ℕ} (hp : c.pc x = .splitting cur idx)
    (hother : (c.pc !x) = .returned true) (hlast : c.shared.table.available = kSynonymMax - 1) :
    ∃ c', Reaches (twoInserts calls) (fun _ _ => True) c₀ c' ∧ (∀ y, c'.pc y = .returned true) ∧
      ¬Intact s₀ c'.shared calls fun _ => true := by
  obtain ⟨n, _, hn, ht₁, m⟩ := h.next_splitting hr hp
  obtain ⟨c₁, hreach, h₁, hp, ho₁, hs₁⟩ := h.reach hr hreach hp hn m
  rw [← hs₁] at ht₁
  obtain ⟨hchain, pre, b, post, npre, npost, hpicks, hnone, hfull⟩ := h₁.standsAt hp
  have hi := h₁.lt hr x
  obtain ⟨s₂, cur', s₃, s₄, b', hn₁, hn₂, hn₃, hn₄, hn₅, hsize, hrep, hb'⟩ := exists_half_lost
    h₁.represents hN hN0 hi (hr.key x) idx hpicks.nums
    (hchain.trans hpicks.located.eq) hpicks.length hnone hfull (h₁.spare x n (by rw [hp]; rfl))
    (by rw [ht₁]; exact hlast)
  have hrun : c₁.run (twoInserts calls) [x, x, x, x, x] =
      some ⟨Function.update c₁.pc x (.returned true), s₄⟩ := by
    simp only [Config.run, Config.step, twoInserts, hp, hn₁, hn₂, hn₃, hn₄, hn₅, Option.map_some,
      Option.bind_some, Function.update_self, Function.update_idem]
  refine ⟨_, hreach.run hrun, forall_update (Q := fun _ (q : InsertPhase) => q = .returned true) rfl
    (ho₁.trans hother), fun hint => ?_⟩
  -- a key of the upper half
  obtain ⟨e, he⟩ : ∃ e, e ∈ b.drop (N / 2) := by
    have hlt : N / 2 < N := Nat.div_lt_self hN0 (by norm_num)
    have hlen : 0 < (b.drop (N / 2)).length := by rw [List.length_drop]; omega
    exact List.exists_mem_of_length_pos hlen
  have heb := List.mem_of_mem_drop he
  have hbs := hpicks.located.flatten_eq
  have hmem : e ∈ (bs (calls x).lIdx).flatten := by
    rw [hbs]
    simp [heb]
  have hfound := hint.stored _ (hr.lt x) _ (hr.sound.toRepresents.chainEntries_ok (hr.lt x)) e hmem
  have hin := hrep.mem_of_searchAt (by rw [hsize]; exact hi)
    (hr.sound.toRepresents.below_of_mem (hr.lt x) hmem) hfound
  have hasc := (hr.sound.ordered _ (hr.lt x)).ascending
  rw [hbs, ascending_append, ascending_append] at hasc
  obtain ⟨hpre, ⟨hb, hpost, hbpost⟩, hprelt⟩ := hasc
  rw [Function.update_self, List.flatten_append, List.flatten_cons, List.mem_append,
    List.mem_append] at hin
  rcases hin with hin | hin | hin
  · exact lt_irrefl _ (hprelt _ hin e (List.mem_append_left _ heb))
  · rcases hb' _ hin with hk | hlow
    · exact lookup_eq_none.mp hnone e heb hk
    · rw [← List.take_append_drop (N / 2) b, ascending_append] at hb
      exact lt_irrefl _ (hb.2.2 _ hlow e he)
  · exact lt_irrefl _ (hbpost e heb _ hin)

end Underway

namespace Ready

variable {s : TableState K V N} {calls : Bool → InsertCall K V} {slots : ℕ → List ℕ}
  {bs : ℕ → List (List (K × V))}

theorem splits_iff (h : Ready s calls slots bs) (hN0 : 0 < N) (x : Bool) :
    s.splits (calls x) = .ok true ↔ MustSplit N (calls x).key (bs (calls x).lIdx) := by
  have hrep := h.sound.toRepresents
  obtain ⟨pre, b, post, npre, p, npost, f⟩ := hrep.exists_focus (h.lt x) (calls x).key
  have hcur := f.pickedLeaf_eq
  rw [← h.leaf x] at hcur
  have hval : s.splits (calls x) = .ok (!(s.alloc.leaves p).contain (calls x).key &&
      (s.alloc.leaves p).isfull) := by
    rw [TableState.splits, hrep.synonymLeaves_ok (h.lt x), ok_bind,
      f.pickSynonym_ok hrep (h.lt x) (h.key x), ok_bind, hcur]
  have hiff : (!(s.alloc.leaves p).contain (calls x).key && (s.alloc.leaves p).isfull) = true ↔
      b.lookup (calls x).key = none ∧ b.length = N := by
    rw [Bool.and_eq_true, f.holds.isfull_iff hN0, Leaf.contain_eq f.holds (h.key x),
      Bool.not_eq_true', Option.isSome_eq_false_iff, Option.isNone_iff_eq_none]
  rw [hval, Except.ok.injEq, hiff]
  constructor
  · exact fun hb => ⟨pre, b, post, f.located, hb⟩
  · rintro ⟨pre', b', post', hloc, hb⟩
    obtain ⟨rfl, rfl, rfl⟩ := f.located.unique hloc
    exact hb

/-- Both calls pass the tests, then one takes the last slot, then the other loses its half. -/
theorem lost (h : Ready s calls slots bs) (hN : Even N) (hN0 : 0 < N)
    (hlast : s.table.available = kSynonymMax - 2)
    (hsplit : ∀ x, MustSplit N (calls x).key (bs (calls x).lIdx)) :
    ∃ c, Reaches (twoInserts calls) (fun _ _ => True) ⟨fun _ => .start, s⟩ c ∧
      (∀ x, c.pc x = .returned true) ∧ ¬Intact s c.shared calls fun _ => true := by
  have hroom : s.table.available < kSynonymMax - 1 := by
    rw [hlast]
    decide
  obtain ⟨c₁, cur, idx, hreach, h₁, hp₁, ho₁, hav₁⟩ :=
    (Underway.start h).reach_splitting (x := true) h hN0 Reaches.start rfl (hsplit true) hroom
  obtain ⟨c₂, cur', idx', hreach, h₂, hp₂, ho₂, hav₂⟩ :=
    h₁.reach_splitting (x := false) h hN0 hreach ho₁ (hsplit false) (hav₁ ▸ hroom)
  have hroom₂ : c₂.shared.table.available < kSynonymMax - 1 := by rw [hav₂, hav₁]; exact hroom
  obtain ⟨c₃, slots₃, chains₃, hreach, h₃, hp₃, ho₃, hav₃⟩ :=
    h₂.reach_returned h hN hN0 hreach hp₂ hroom₂
  have hp₃' : c₃.pc true = .splitting cur idx := ho₃.trans (ho₂.trans hp₁)
  refine h₃.reach_lost h hN hN0 hreach hp₃' hp₃ ?_
  rw [hav₃, hav₂, hav₁]
  change s.table.available + 1 = _
  rw [hlast]
  rfl

theorem intact (h : Ready s calls slots bs) (hN : Even N) (hN0 : 0 < N)
    (hgood : ¬(s.table.available = kSynonymMax - 2 ∧
      ∀ x, MustSplit N (calls x).key (bs (calls x).lIdx)))
    {c : Config Bool InsertPhase (TableState K V N)} {res : Bool → Bool}
    (hreach : Reaches (twoInserts calls) (fun _ _ => True) ⟨fun _ => .start, s⟩ c)
    (hret : ∀ x, c.pc x = .returned (res x)) : Intact s c.shared calls res := by
  have hN2 : 2 ≤ N := by obtain ⟨n, rfl⟩ := hN; omega
  obtain ⟨slots', chains', hu⟩ :=
    hreach.invariant (I := fun c => ∃ slots chains, Underway s calls bs c slots chains)
    ⟨slots, bs, Underway.start h⟩ fun c x p s' ⟨_, _, hu⟩ _ hn =>
      hu.next h hN hN0 (fun he hp hsplit => hu.roomy hgood he hp hsplit) hn
  exact hu.intact_of_returned h hN2 hret

end Ready

/-- What `LeafTable::insert` passes on in state `s`. -/
def Passed (s : TableState K V N) (call : InsertCall K V) : Prop :=
  call.key < ⊤ ∧ ∃ lo hi, lo ≤ hi ∧ hi < s.table.size ∧
    s.table.pickEntry s.alloc call.key lo hi = .ok (call.lIdx, call.leaf)

theorem Sound.ready {s : TableState K V N} {slots : ℕ → List ℕ} {chains : ℕ → List (List (K × V))}
    (h : Sound s.table s.alloc slots chains) (henough : s.alloc.used + 2 ≤ s.alloc.allocated)
    {calls : Bool → InsertCall K V} (hcalls : ∀ x, Passed s (calls x))
    (hne : (calls false).lIdx ≠ (calls true).lIdx) : Ready s calls slots chains where
  sound := h
  enough := henough
  key := fun x => (hcalls x).1
  lt := fun x => by
    obtain ⟨hk, lo, hi, hle, hlt, hpick⟩ := hcalls x
    rw [h.pickEntry_ok hk hle hlt] at hpick
    obtain ⟨h1, -⟩ := Prod.mk.inj (Except.ok.inj hpick)
    exact h1 ▸ (target_le hle).trans_lt hlt
  leaf := fun x => by
    obtain ⟨hk, lo, hi, hle, hlt, hpick⟩ := hcalls x
    rw [h.pickEntry_ok hk hle hlt] at hpick
    obtain ⟨h1, h2⟩ := Prod.mk.inj (Except.ok.inj hpick)
    exact h2.symm.trans (congrArg s.table.entryNum h1)
  ne := fun x => by
    cases x with
    | false => exact hne
    | true => exact hne.symm

/-- The state that a run of inserts reaches from a trained table has leaves for two more splits. -/
theorem Trained.run_sound (hN : Even N) (hN0 : 0 < N) {data : List (K × V)}
    {s₀ s : TableState K V N} (h : Trained data s₀)
    (he : s₀.alloc.used + kSynonymMax + 1 ≤ s₀.alloc.allocated + s₀.table.available)
    {ops : List (TableOp K V × ℕ × ℕ)} {answers : List (Answer V)}
    (hrun : s₀.run ops = .ok (answers, s)) (hops : ∀ c ∈ ops, ∃ k v, c.1 = .insert k v) :
    ∃ slots chains, Sound s.table s.alloc slots chains ∧ s.alloc.used + 2 ≤ s.alloc.allocated := by
  obtain ⟨base, hf⟩ := h.filled hN0
  have hstores : ∀ c ∈ ops, c.1.Stores := fun c hc => by
    obtain ⟨k, v, heq⟩ := hops c hc
    rw [heq]
    trivial
  obtain ⟨slots, chains, hs, hcount, hall⟩ := (hf.sound h.ascending).run_stores hN hN0 hstores hrun
  have hle : s.table.available + 1 ≤ kSynonymMax := Nat.add_le_of_le_sub (by decide) hs.countLe
  exact ⟨slots, chains, hs, by omega⟩

/-! ### Reaching the last slot -/

/-- Entry 0 ends in a full leaf and only holds keys below `ks`, entry 1 is the leaf `other`. -/
structure Brim (s : TableState K V 2) (ks : List K) (other : List (K × V)) (slots : ℕ → List ℕ)
    (chains : ℕ → List (List (K × V))) (pre : List (List (K × V)))
    (last : List (K × V)) : Prop where
  sound : Sound s.table s.alloc slots chains
  enough : s.Enough
  size : s.table.size = 2
  zero : chains 0 = pre ++ [last]
  full : last.length = 2
  lt : ∀ e ∈ (chains 0).flatten, ∀ k ∈ ks, e.1 < k
  one : chains 1 = [other]

namespace Brim

variable {s : TableState K V 2} {k : K} {ks : List K} {other : List (K × V)} {slots : ℕ → List ℕ}
  {chains : ℕ → List (List (K × V))} {pre : List (List (K × V))} {last : List (K × V)}

theorem mem_last (h : Brim s ks other slots chains pre last) {e : K × V} (he : e ∈ last) :
    e ∈ (chains 0).flatten := by
  rw [h.zero, List.flatten_append, List.flatten_singleton]
  exact List.mem_append_right _ he

theorem located (h : Brim s (k :: ks) other slots chains pre last) :
    Located k (chains 0) pre last [] := by
  refine ⟨h.zero, ?_⟩
  obtain ⟨x, rest, hlast⟩ :=
    List.exists_cons_of_length_pos (by rw [h.full]; norm_num : 0 < last.length)
  have hx : x.1 < k := h.lt x (h.mem_last (by simp [hlast])) k List.mem_cons_self
  have hlen : (pre ++ [last]).length - 1 = pre.length := by simp
  rw [h.zero, locate, hlen, Nat.findGreatest_eq]
  simp [hlast, opens, hx.le]

theorem lookup_eq (h : Brim s (k :: ks) other slots chains pre last) :
    (chains 0).flatten.lookup k = none :=
  lookup_eq_none.mpr fun e he => (h.lt e he k List.mem_cons_self).ne

theorem insert_chain (h : Brim s (k :: ks) other slots chains pre last) (v : V) : ∃ x y,
    BlockChain.insert 2 k v (chains 0) = (pre ++ [[x]]) ++ [[y, (k, v)]] := by
  obtain ⟨x, y, hlast⟩ := List.length_eq_two.mp h.full
  have hy : y.1 < k := h.lt y (h.mem_last (by simp [hlast])) k List.mem_cons_self
  have hput : put k v [y] = [y, (k, v)] := put_of_all_lt (by simpa using hy)
  refine ⟨x, y, ?_⟩
  rw [BlockChain.insert, h.located.edit_eq, hlast]
  simp [grow, opens, hy.le, hput]

theorem insert (h : Brim s (k :: ks) other slots chains pre last) (hk : k < ⊤)
    (hks : ∀ x ∈ ks, k < x) (hroom : s.table.available < kSynonymMax - 1) (v : V) :
    ∃ s' slots' chains' pre' last', s.call (.insert k v) 0 0 = .ok (.done true, s') ∧
      s'.table.available = s.table.available + 1 ∧ Brim s' ks other slots' chains' pre' last' := by
  have h0 : 0 < s.table.size := by rw [h.size]; norm_num
  have hleaf : s.alloc.used < s.alloc.allocated := by
    have he := h.enough
    rw [TableState.Enough] at he
    omega
  obtain ⟨t', alloc', slots', hok, hstep, hav, _⟩ :=
    h.sound.insertSynonym_absent (by decide) (by norm_num) h0 hk h.lookup_eq hroom
      (fun _ _ _ _ _ => hleaf) v
  obtain ⟨x, y, hchain⟩ := h.insert_chain v
  have hcall : s.call (.insert k v) 0 0 = .ok (.done true, ⟨t', alloc'⟩) := by
    rw [TableState.call, LeafTable.insert, if_pos ⟨h0, le_rfl⟩,
      h.sound.toRepresents.pickEntry_ok hk le_rfl h0, ok_bind]
    simp only [target]
    rw [hok, ok_bind]
  refine ⟨_, slots', _, _, _, hcall, hav _ _ _ h.located h.full, hstep.sound,
    Step.enough hstep h.enough, hstep.size.trans h.size, (Function.update_self ..).trans hchain,
    rfl, fun e he z hz => ?_, (Function.update_of_ne one_ne_zero ..).trans h.one⟩
  rw [Function.update_self] at he
  rcases (mem_flatten_insert (h.sound.ordered 0 h0)).mp he with rfl | he
  · exact hks z hz
  · exact h.lt e he z (List.mem_cons_of_mem _ hz)

theorem run (v : V) {todo : List K} : ∀ {s : TableState K V 2} {slots : ℕ → List ℕ}
    {chains : ℕ → List (List (K × V))} {pre : List (List (K × V))} {last : List (K × V)},
    Brim s (todo ++ ks) other slots chains pre last → (todo ++ ks).Pairwise (· < ·) →
    (∀ x ∈ todo, x < ⊤) →
    s.table.available + todo.length ≤ kSynonymMax - 1 →
    ∃ answers s' slots' chains' pre' last', s.run (todo.map fun x => (.insert x v, 0, 0)) =
      .ok (answers, s') ∧
      s'.table.available = s.table.available + todo.length ∧
      Brim s' ks other slots' chains' pre' last' := by
  induction todo with
  | nil => exact fun h _ _ _ => ⟨[], _, _, _, _, _, rfl, rfl, h⟩
  | cons x todo ih =>
    intro s slots chains pre last h hasc htop hroom
    rw [List.length_cons] at hroom
    rw [List.cons_append, List.pairwise_cons] at hasc
    obtain ⟨s₁, _, _, _, _, hcall, hav₁, h₁⟩ :=
      h.insert (htop x List.mem_cons_self) hasc.1 (by omega) v
    obtain ⟨answers, s₂, slots₂, chains₂, pre₂, last₂, hrun, hav₂, h₂⟩ :=
      ih h₁ hasc.2 (fun z hz => htop z (List.mem_cons_of_mem _ hz)) (by omega)
    refine ⟨.done true :: answers, s₂, slots₂, chains₂, pre₂, last₂, ?_,
      by rw [List.length_cons]; omega, h₂⟩
    rw [List.map_cons, TableState.run, hcall, ok_bind, hrun, ok_bind]

end Brim

def risingKeys : List Key := (List.range 125).map fun i => Fin.ofNat _ (3 + i)

theorem mem_risingKeys {k : Key} : k ∈ risingKeys ↔ 3 ≤ k.val ∧ k.val < 128 := by
  simp only [risingKeys, List.mem_map, List.mem_range, Fin.ext_iff, Fin.val_ofNat]
  constructor
  · rintro ⟨i, hi, he⟩
    omega
  · rintro ⟨h3, h128⟩
    exact ⟨k.val - 3, by omega, by omega⟩

theorem risingKeys_ascending : (risingKeys ++ [128]).Pairwise (· < ·) := by
  rw [List.pairwise_append, risingKeys, List.pairwise_map]
  refine ⟨?_, List.pairwise_singleton .., fun a ha b hb => ?_⟩
  · refine List.pairwise_lt_range.imp_of_mem fun ha hb hab => ?_
    rw [List.mem_range] at ha hb
    rw [Fin.lt_def, Fin.val_ofNat, Fin.val_ofNat]
    omega
  · obtain rfl := List.mem_singleton.mp hb
    exact Fin.lt_def.mpr (mem_risingKeys.mp ha).2

theorem trained_four : ∃ s : TableState Key ℕ 2,
    Trained [(1, 10), (2, 20), (1000, 30), (2000, 40)] s ∧
      s.alloc.used + kSynonymMax + 1 ≤ s.alloc.allocated + s.table.available ∧
      s.table.available = 1 ∧
      Brim s (risingKeys ++ [128]) [(1000, 30), (2000, 40)] (fun _ => [])
        (fun i => [SubModel.block 2 [(1, 10), (2, 20), (1000, 30), (2000, 40)] i]) [] [(1, 10),
          (2, 20)] := by
  obtain ⟨s, h, hf⟩ := Trained.exists (by norm_num)
    (show Ascending [((1 : Key), 10), (2, 20), (1000, 30), (2000, 40)] by decide) (by decide)
    (LeafAllocator.prealloc_fresh (fun _ => zeroLeaf 2) 200 (by norm_num)) (by decide)
  have hhave : s.alloc.used + kSynonymMax + 1 ≤ s.alloc.allocated + s.table.available := by
    rw [hf.used, hf.allocated, hf.available, hf.size]
    decide
  refine ⟨s, h, hhave, hf.available, hf.sound h.ascending, ?_, hf.size, rfl, rfl, ?_, rfl⟩
  · rw [TableState.Enough]
    omega
  · intro e he k hk
    have hk3 : (2 : Key) < k := by
      rcases List.mem_append.mp hk with hk | hk
      · exact Fin.lt_def.mpr (mem_risingKeys.mp hk).1
      · obtain rfl := List.mem_singleton.mp hk
        decide
    have he2 : e.1 ≤ 2 := by
      revert e
      decide
    exact he2.trans_lt hk3

def lastCalls (s : TableState Key ℕ 2) : Bool → InsertCall Key ℕ
  | true => ⟨128, 7, 0, s.table.entryNum 0⟩
  | false => ⟨1500, 8, 1, s.table.entryNum 1⟩

theorem Brim.passed {s : TableState Key ℕ 2} {ks : List Key} {other : List (Key × ℕ)}
    {slots : ℕ → List ℕ} {chains : ℕ → List (List (Key × ℕ))} {pre : List (List (Key × ℕ))}
    {last : List (Key × ℕ)} (h : Brim s ks other slots chains pre last) (x : Bool) :
    Passed s (lastCalls s x) := by
  have h0 : 0 < s.table.size := by rw [h.size]; norm_num
  have h1 : 1 < s.table.size := by rw [h.size]; norm_num
  cases x with
  | true =>
    have hk : (128 : Key) < ⊤ := by decide
    exact ⟨hk, 0, 0, le_rfl, h0, h.sound.toRepresents.pickEntry_ok hk le_rfl h0⟩
  | false =>
    have hk : (1500 : Key) < ⊤ := by decide
    exact ⟨hk, 1, 1, le_rfl, h1, h.sound.toRepresents.pickEntry_ok hk le_rfl h1⟩

/-- Two concurrent inserts into different entries of a table that inserts have led to. -/
theorem concurrentInserts_intact_iff (hN : Even N) (hN0 : 0 < N) {data : List (K × V)}
    {s₀ s : TableState K V N} (h : Trained data s₀)
    (he : s₀.alloc.used + kSynonymMax + 1 ≤ s₀.alloc.allocated + s₀.table.available)
    {ops : List (TableOp K V × ℕ × ℕ)} {answers : List (Answer V)}
    (hrun : s₀.run ops = .ok (answers, s)) (hops : ∀ c ∈ ops, ∃ k v, c.1 = .insert k v)
    {calls : Bool → InsertCall K V} (hcalls : ∀ x, Passed s (calls x))
    (hne : (calls false).lIdx ≠ (calls true).lIdx) :
    (∀ c res, Reaches (twoInserts calls) (fun _ _ => True) ⟨fun _ => .start, s⟩ c →
      (∀ x, c.pc x = .returned (res x)) → Intact s c.shared calls res) ↔
    ¬(s.table.available = kSynonymMax - 2 ∧ ∀ x, s.splits (calls x) = .ok true) := by
  obtain ⟨slots, chains, hs, henough⟩ := h.run_sound hN hN0 he hrun hops
  have hr := hs.ready henough hcalls hne
  have hiff : (∀ x, s.splits (calls x) = .ok true) ↔
      ∀ x, MustSplit N (calls x).key (chains (calls x).lIdx) :=
    forall_congr' fun x => hr.splits_iff hN0 x
  rw [hiff]
  constructor
  · rintro hall ⟨hlast, hsplit⟩
    obtain ⟨c, hreach, hret, hlost⟩ := hr.lost hN hN0 hlast hsplit
    exact hlost (hall c _ hreach hret)
  · exact fun hgood c res hreach hret => hr.intact hN hN0 hgood hreach hret

theorem insert_of_risingKeys : ∀ c ∈ risingKeys.map fun k => ((.insert k 0 : TableOp Key ℕ), 0, 0),
    ∃ k v, c.1 = .insert k v := by
  intro c hc
  obtain ⟨k, _, rfl⟩ := List.mem_map.mp hc
  exact ⟨k, 0, rfl⟩

theorem rising_run : ∃ (s₀ s : TableState Key ℕ 2) (answers : List (Answer ℕ)),
    Trained [(1, 10), (2, 20), (1000, 30), (2000, 40)] s₀ ∧
    s₀.alloc.used + kSynonymMax + 1 ≤ s₀.alloc.allocated + s₀.table.available ∧
    s₀.run (risingKeys.map fun k => (.insert k 0, 0, 0)) = .ok (answers, s) ∧
    s.table.available = kSynonymMax - 2 ∧
    ∃ slots chains pre last, Brim s [128] [(1000, 30), (2000, 40)] slots chains pre last := by
  obtain ⟨s₀, h, he, hav, hb⟩ := trained_four
  have htop : ∀ k ∈ risingKeys, k < ⊤ := fun k hk =>
    Fin.lt_def.mpr ((mem_risingKeys.mp hk).2.trans (by decide))
  have hlen : risingKeys.length = 125 := by rw [risingKeys, List.length_map, List.length_range]
  obtain ⟨answers, s, slots, chains, pre, last, hrun, hav', hb'⟩ :=
    hb.run 0 risingKeys_ascending htop (by rw [hav, hlen]; decide)
  exact ⟨s₀, s, answers, h, he, hrun, by rw [hav', hav, hlen]; rfl, slots, chains, pre, last, hb'⟩

theorem concurrentInserts_intact_iff_rising :
    ∃ (s₀ s : TableState Key ℕ 2) (answers : List (Answer ℕ)),
    s₀.run (risingKeys.map fun k => (.insert k 0, 0, 0)) = .ok (answers, s) ∧
    ((∀ c res, Reaches (twoInserts (lastCalls s)) (fun _ _ => True) ⟨fun _ => .start, s⟩ c →
      (∀ x, c.pc x = .returned (res x)) → Intact s c.shared (lastCalls s) res) ↔
    ¬(s.table.available = kSynonymMax - 2 ∧ ∀ x, s.splits (lastCalls s x) = .ok true)) := by
  obtain ⟨s₀, s, answers, h, he, hrun, _, _, _, _, _, hb⟩ := rising_run
  exact ⟨s₀, s, answers, hrun, concurrentInserts_intact_iff (by decide) (by norm_num) h he hrun
    insert_of_risingKeys hb.passed Nat.one_ne_zero⟩

theorem two_inserts_lose_keys : ∃ (s₀ s : TableState Key ℕ 2) (answers : List (Answer ℕ)),
    Trained [(1, 10), (2, 20), (1000, 30), (2000, 40)] s₀ ∧
    s₀.alloc.used + kSynonymMax + 1 ≤ s₀.alloc.allocated + s₀.table.available ∧
    s₀.run (risingKeys.map fun k => (.insert k 0, 0, 0)) = .ok (answers, s) ∧
    (∀ x, Passed s (lastCalls s x)) ∧
    ∃ c, Reaches (twoInserts (lastCalls s)) (fun _ _ => True) ⟨fun _ => .start, s⟩ c ∧
      (∀ x, c.pc x = .returned true) ∧ ¬Intact s c.shared (lastCalls s) fun _ => true := by
  obtain ⟨s₀, s, answers, h, he, hrun, hlast, slots, chains, pre, last, hb⟩ := rising_run
  have hr : Ready s (lastCalls s) slots chains := by
    obtain ⟨_, _, _, henough⟩ := h.run_sound (by decide) (by norm_num) he hrun insert_of_risingKeys
    exact hb.sound.ready henough hb.passed Nat.one_ne_zero
  refine ⟨s₀, s, answers, h, he, hrun, hb.passed, hr.lost (by decide) (by norm_num) hlast ?_⟩
  rintro (_ | _)
  · have hlocate : locate (1500 : Key) [[((1000 : Key), 30), (2000, 40)]] = 0 := by decide
    have hnone : List.lookup (1500 : Key) [((1000 : Key), 30), (2000, 40)] = none := by decide
    exact ⟨[], _, [], ⟨hb.one, (congrArg (locate 1500) hb.one).trans hlocate⟩, hnone, rfl⟩
  · exact ⟨pre, last, [], hb.located, lookup_eq_none.mpr fun e hmem =>
      (hb.lt e (hb.mem_last hmem) 128 List.mem_cons_self).ne, hb.full⟩

end Rolex
