import Rolex.LinearModel
import Rolex.ChainSpec

/-! `SubModel` of `submodel.hpp`: a linear model over the leaf table that its
constructor fills. Entry `i` of a filled table holds the `i`-th block of `N`
pairs of the data. -/

namespace Rolex
open AscendingMap BlockChain LinkedSlots

structure SubModel (F : Type) where
  model : LinearRegressionModel F
  ltable : LeafTable
  capacity : ℕ

namespace SubModel

variable {K V F : Type} {N : ℕ} [LinearOrder K] [OrderTop K]

def fill : List (K × V) → LeafTable → LeafAllocator K V N → ℕ →
    Except Fault (LeafTable × LeafAllocator K V N)
  | [], ltable, alloc, _ => .ok (ltable, alloc)
  | e :: data, ltable, alloc, curLeaf =>
    if (alloc.leaves curLeaf).isfull then do
      let res ← alloc.fetchNewLeaf
      let ltable := ltable.trainEmplaceBack res.1
      let alloc := res.2
      fill data ltable (alloc.write res.1 ((alloc.leaves res.1).insertNotFull e.1 e.2).2) res.1
    else
      fill data ltable (alloc.write curLeaf ((alloc.leaves curLeaf).insertNotFull e.1 e.2).2)
        curLeaf

/-- The constructor; `data` are the pairs at `keys_begin` and `vals_begin`. -/
def construct (raw : Fin kSynonymMax → TableEntry) (slope intercept : F) (data : List (K × V))
    (alloc : LeafAllocator K V N) : Except Fault (SubModel F × LeafAllocator K V N) := do
  let res ← alloc.fetchNewLeaf
  let filled ← fill data ((LeafTable.construct raw).trainEmplaceBack res.1) res.2 res.1
  .ok (⟨⟨slope, intercept⟩, filled.1, data.length⟩, filled.2)

/-! ### The operations -/

section Operations

variable (fmt : DoubleFormat F) (epsilon : ℕ) (m : SubModel F)

def window (N : ℕ) (key : Key) : ℕ × ℕ :=
  let p := m.model.predict fmt epsilon key m.capacity
  ((max (toInt32 (p.lo / N)) 0).toNat, (max (toInt32 (p.hi / N)) 0).toNat)

def search (alloc : LeafAllocator Key V N) (key : Key) : Except Fault (Option V) :=
  let w := m.window fmt epsilon N key
  m.ltable.search alloc key w.1 w.2

def update (alloc : LeafAllocator Key V N) (key : Key) (val : V) :
    Except Fault (Bool × SubModel F × LeafAllocator Key V N) := do
  let w := m.window fmt epsilon N key
  let res ← m.ltable.update alloc key val w.1 w.2
  .ok (res.1, { m with ltable := res.2.1 }, res.2.2)

def insert (alloc : LeafAllocator Key V N) (key : Key) (val : V) :
    Except Fault (Bool × SubModel F × LeafAllocator Key V N) := do
  let w := m.window fmt epsilon N key
  let res ← m.ltable.insert alloc key val w.1 w.2
  .ok (res.1, { m with ltable := res.2.1 }, res.2.2)

def remove (alloc : LeafAllocator Key V N) (key : Key) :
    Except Fault (Bool × SubModel F × LeafAllocator Key V N) := do
  let w := m.window fmt epsilon N key
  let res ← m.ltable.remove alloc key w.1 w.2
  .ok (res.1, { m with ltable := res.2.1 }, res.2.2)

def range (alloc : LeafAllocator Key V N) (key : Key) (n : ℕ) (vals : List V) :
    Except Fault (List V) :=
  let w := m.window fmt epsilon N key
  m.ltable.range alloc key n vals w.1 w.2

end Operations

/-! ### What the constructor builds -/

def block (N : ℕ) (data : List (K × V)) (i : ℕ) : List (K × V) := (data.drop (i * N)).take N

def leafCount (N n : ℕ) : ℕ := (n - 1) / N + 1

theorem leafCount_pos (N n : ℕ) : 0 < leafCount N n := Nat.succ_pos _

omit [LinearOrder K] [OrderTop K] in
theorem block_eq_nil {data : List (K × V)} {i : ℕ} (h : data.length ≤ i * N) :
    block N data i = [] := by
  rw [block, List.drop_eq_nil_of_le h, List.take_nil]

omit [LinearOrder K] [OrderTop K] in
theorem block_append_last (hN : 0 < N) (done : List (K × V)) (e : K × V) :
    block N (done ++ [e]) (done.length / N) = block N done (done.length / N) ++ [e] := by
  have hle : done.length / N * N ≤ done.length := Nat.div_mul_le_self ..
  have hlt : done.length < done.length / N * N + N := Nat.lt_div_mul_add hN
  rw [block, block, List.drop_append_of_le_length hle, List.take_append,
    List.take_of_length_le (l := List.drop _ _) (by rw [List.length_drop]; omega)]
  congr 1
  rw [List.take_of_length_le]
  rw [List.length_singleton, List.length_drop]
  omega

omit [LinearOrder K] [OrderTop K] in
theorem block_append_ne (hN : 0 < N) (done : List (K × V)) (e : K × V) {i : ℕ}
    (hi : i < done.length / N) : block N (done ++ [e]) i = block N done i := by
  have hle : (i + 1) * N ≤ done.length :=
    (Nat.mul_le_mul_right N hi).trans (Nat.div_mul_le_self ..)
  rw [Nat.succ_mul] at hle
  rw [block, block, List.drop_append_of_le_length (by omega), List.take_append_of_le_length]
  rw [List.length_drop]
  omega

omit [LinearOrder K] [OrderTop K] in
theorem update_blocks (hN : 0 < N) (done : List (K × V)) (e : K × V) :
    Function.update (fun i => [block N done i]) (done.length / N)
        [block N done (done.length / N) ++ [e]] = fun i => [block N (done ++ [e]) i] := by
  funext i
  rcases lt_trichotomy i (done.length / N) with h | rfl | h
  · rw [Function.update_of_ne h.ne, block_append_ne hN done e h]
  · rw [Function.update_self, block_append_last hN]
  · have hle : done.length < i * N := by
      have hlt : done.length < done.length / N * N + N := Nat.lt_div_mul_add hN
      have hmul : (done.length / N + 1) * N ≤ i * N := Nat.mul_le_mul_right N h
      rw [Nat.succ_mul] at hmul
      omega
    rw [Function.update_of_ne h.ne', block_eq_nil hle.le, block_eq_nil]
    rw [List.length_append, List.length_singleton]
    omega

omit [LinearOrder K] [OrderTop K] in
theorem getElem_mem_block (hN : 0 < N) (data : List (K × V)) {j : ℕ} (hj : j < data.length) :
    data[j] ∈ block N data (j / N) := by
  have hle : j / N * N ≤ j := Nat.div_mul_le_self ..
  have hlt : j < j / N * N + N := Nat.lt_div_mul_add hN
  rw [block, List.mem_iff_getElem]
  refine ⟨j - j / N * N, by rw [List.length_take, List.length_drop]; omega, ?_⟩
  rw [List.getElem_take, List.getElem_drop]
  congr 1
  omega

omit [LinearOrder K] [OrderTop K] in
theorem exists_of_mem_block {data : List (K × V)} {i : ℕ} {e : K × V} (h : e ∈ block N data i) :
    ∃ (j : ℕ) (hj : j < data.length), data[j] = e ∧ j / N = i := by
  obtain ⟨m, hm, rfl⟩ := List.mem_iff_getElem.mp h
  rw [block, List.length_take, List.length_drop] at hm
  refine ⟨i * N + m, by omega, ?_, ?_⟩
  · simp only [block, List.getElem_take, List.getElem_drop]
  · exact Nat.div_eq_of_lt_le (by omega) (by rw [Nat.succ_mul]; omega)

omit [OrderTop K] in
theorem not_opens_block {data : List (K × V)} (hasc : Ascending data) {j i : ℕ}
    (hj : j < data.length) (hi : j / N < i) : opens data[j].1 (block N data i) = false := by
  rw [Bool.eq_false_iff]
  intro hopen
  obtain ⟨x, rest, hx, hxe⟩ := (opens_iff _ _).mp hopen
  obtain ⟨j', hj', rfl, hji⟩ := exists_of_mem_block (hx ▸ List.mem_cons_self : x ∈ block N data i)
  have hjj : j < j' := by
    by_contra hle
    have := Nat.div_le_div_right (c := N) (not_lt.mp hle)
    omega
  exact absurd hxe (not_le.mpr (List.pairwise_iff_getElem.mp hasc j j' hj hj' hjj))

/-- The last leaf whose first key is at or below `k`, leaf 0 if there is none. -/
def trainedLeaf (N : ℕ) (data : List (K × V)) (k : K) : ℕ :=
  Nat.findGreatest (fun i => opens k (block N data i) = true) (leafCount N data.length - 1)

omit [OrderTop K] in
theorem trainedLeaf_getElem (hN : 0 < N) {data : List (K × V)} (hasc : Ascending data) {j : ℕ}
    (hj : j < data.length) : trainedLeaf N data data[j].1 = j / N := by
  have hblock : Ascending (block N data (j / N)) :=
    (hasc.sublist (List.drop_sublist ..)).sublist (List.take_sublist ..)
  have hopen := opens_of_mem hblock (getElem_mem_block hN data hj) le_rfl
  have hle : j / N ≤ leafCount N data.length - 1 := by
    rw [leafCount, Nat.add_sub_cancel]
    exact Nat.div_le_div_right (by omega)
  rw [trainedLeaf, Nat.findGreatest_eq_iff]
  exact ⟨hle, fun _ => hopen, fun i hi _ => Bool.eq_false_iff.mp (not_opens_block hasc hj hi)⟩

omit [LinearOrder K] [OrderTop K] in
theorem flatten_blocks (data : List (K × V)) {n : ℕ} (hn : data.length ≤ n * N) :
    ((List.range n).map (block N data)).flatten = data := by
  have h : ∀ m, ((List.range m).map (block N data)).flatten = data.take (m * N) := by
    intro m
    induction m with
    | zero => simp
    | succ m ih =>
      rw [List.range_succ, List.map_append, List.flatten_append, ih, List.map_singleton,
        List.flatten_singleton, block, Nat.succ_mul, List.take_add]
  rw [h, List.take_of_length_le hn]

end SubModel

namespace LeafTable

/-! ### One more entry -/

variable (t : LeafTable) (n : ℕ)

theorem trainEmplaceBack_size : (t.trainEmplaceBack n).size = t.size + 1 := by
  rw [size, trainEmplaceBack, List.length_append, List.length_singleton]

theorem trainEmplaceBack_next : (t.trainEmplaceBack n).next = t.next := rfl

theorem trainEmplaceBack_head (j : ℕ) : (t.trainEmplaceBack n).head j = t.head j := by
  rw [head, head, trainEmplaceBack]
  rcases lt_trichotomy j t.size with h | rfl | h
  · rw [List.getElem?_append_left h]
  · rw [List.getElem?_append_right le_rfl, Nat.sub_self, List.getElem?_eq_none le_rfl]
    rfl
  · rw [List.getElem?_eq_none (by simp; omega), List.getElem?_eq_none h.le]

theorem trainEmplaceBack_lockBit (j : ℕ) : (t.trainEmplaceBack n).lockBit j = t.lockBit j := by
  rw [lockBit, lockBit, trainEmplaceBack]
  rcases lt_trichotomy j t.size with h | rfl | h
  · rw [List.getElem?_append_left h]
  · rw [List.getElem?_append_right le_rfl, Nat.sub_self, List.getElem?_eq_none le_rfl]
    rfl
  · rw [List.getElem?_eq_none (by simp; omega), List.getElem?_eq_none h.le]

theorem trainEmplaceBack_entryNum_lt {j : ℕ} (h : j < t.size) :
    (t.trainEmplaceBack n).entryNum j = t.entryNum j := by
  rw [entryNum, entryNum, trainEmplaceBack, List.getElem?_append_left h]

theorem trainEmplaceBack_entryNum_last {n : ℕ} (hn : n < 2 ^ 48) :
    (t.trainEmplaceBack n).entryNum t.size = n := by
  rw [entryNum, trainEmplaceBack, List.getElem?_append_right le_rfl, Nat.sub_self]
  exact Nat.mod_eq_of_lt hn

theorem head_size : t.head t.size = 0 := by
  rw [head, List.getElem?_eq_none le_rfl]
  rfl

theorem construct_available (raw : Fin kSynonymMax → TableEntry) :
    (construct raw).available = 1 := by
  rw [construct, available_eq, modifySlot_slotNum_self _ _ _ (by norm_num)]
  rfl

end LeafTable

variable {K V : Type} {N : ℕ} [LinearOrder K] [OrderTop K]

/-- Every leaf that was not handed out is as the constructor left it. -/
structure LeafAllocator.Fresh (alloc : LeafAllocator K V N) : Prop where
  usedLe : alloc.used ≤ alloc.allocated
  blank : ∀ p, alloc.used ≤ p → p < alloc.allocated → ∃ raw, alloc.leaves p = Leaf.construct raw

namespace Represents

variable {t : LeafTable} {alloc : LeafAllocator K V N} {slots : ℕ → List ℕ}
  {chains : ℕ → List (List (K × V))}

theorem empty (h : alloc.Fresh) (raw : Fin kSynonymMax → TableEntry) (slots : ℕ → List ℕ)
    (chains : ℕ → List (List (K × V))) :
    Represents (LeafTable.construct raw) alloc slots chains where
  path := fun i hi => absurd hi (Nat.not_lt_zero i)
  handedOut := fun i hi => absurd hi (Nat.not_lt_zero i)
  separate := fun i hi => absurd hi (Nat.not_lt_zero i)
  countPos := (LeafTable.construct_available raw).ge
  countLe := by rw [LeafTable.construct_available]; norm_num
  usedLe := h.usedLe
  numsUsed := fun i hi => absurd hi (Nat.not_lt_zero i)
  numsNodup := fun i hi => absurd hi (Nat.not_lt_zero i)
  numsSeparate := fun i hi => absurd hi (Nat.not_lt_zero i)
  holds := fun i hi => absurd hi (Nat.not_lt_zero i)
  blank := fun p hp hlt => by
    obtain ⟨leaf, hleaf⟩ := h.blank p hp hlt
    rw [hleaf]
    exact Leaf.construct_holds leaf

theorem append (h : Represents t alloc slots chains) (hslots : slots t.size = [])
    (hchain : chains t.size = [[]]) (hleaf : alloc.used < alloc.allocated) :
    Represents (t.trainEmplaceBack alloc.used) { alloc with used := alloc.used + 1 } slots
    chains := by
  have hn : alloc.used < 2 ^ 48 := hleaf.trans_le alloc.addressable
  have hlast : (t.trainEmplaceBack alloc.used).chainNums t.size (slots t.size) = [alloc.used] := by
    rw [LeafTable.chainNums, t.trainEmplaceBack_entryNum_last hn, hslots, List.map_nil]
  have hold : ∀ j < t.size, (t.trainEmplaceBack alloc.used).chainNums j (slots j) =
      t.chainNums j (slots j) := fun j hj => by
    rw [LeafTable.chainNums, t.trainEmplaceBack_entryNum_lt _ hj]
    rfl
  have hcases : ∀ j < (t.trainEmplaceBack alloc.used).size, j < t.size ∨ j = t.size :=
    fun j hj => by
    rw [t.trainEmplaceBack_size] at hj
    omega
  constructor
  · intro j hj
    rw [t.trainEmplaceBack_head, t.trainEmplaceBack_next]
    rcases hcases j hj with hj | rfl
    · exact h.path j hj
    · rw [hslots, t.head_size]
      exact ⟨rfl, by simp⟩
  · intro j hj s hs
    rcases hcases j hj with hj | rfl
    · exact h.handedOut j hj s hs
    · simp [hslots] at hs
  · intro j hj j' hj' hne s hs hs'
    rcases hcases j hj with hj | rfl
    · rcases hcases j' hj' with hj' | rfl
      · exact h.separate j hj j' hj' hne hs hs'
      · simp [hslots] at hs'
    · simp [hslots] at hs
  · exact h.countPos
  · exact h.countLe
  · exact hleaf
  · intro j hj p hp
    rcases hcases j hj with hj | rfl
    · rw [hold j hj] at hp
      exact Nat.lt_succ_of_lt (h.numsUsed j hj p hp)
    · rw [hlast, List.mem_singleton] at hp
      exact hp ▸ Nat.lt_succ_self _
  · intro j hj
    rcases hcases j hj with hj | rfl
    · rw [hold j hj]
      exact h.numsNodup j hj
    · rw [hlast]
      exact List.nodup_singleton _
  · intro j hj j' hj' hne p hp hp'
    rcases hcases j hj with hj | rfl <;> rcases hcases j' hj' with hj' | rfl
    · rw [hold j hj] at hp
      rw [hold j' hj'] at hp'
      exact h.numsSeparate j hj j' hj' hne hp hp'
    · rw [hold j hj] at hp
      rw [hlast, List.mem_singleton] at hp'
      exact (h.numsUsed j hj p hp).ne hp'
    · rw [hold j' hj'] at hp'
      rw [hlast, List.mem_singleton] at hp
      exact (h.numsUsed j' hj' p hp').ne hp
    · exact hne rfl
  · intro j hj
    rcases hcases j hj with hj | rfl
    · rw [hold j hj]
      exact h.holds j hj
    · rw [hlast, hchain]
      exact List.Forall₂.cons (h.blank _ le_rfl hleaf) List.Forall₂.nil
  · exact fun p hp hlt => h.blank p (Nat.le_of_succ_le hp) hlt

end Represents

namespace SubModel

variable {F : Type}

structure Filled (base : LeafAllocator K V N) (done : List (K × V)) (t : LeafTable)
    (alloc : LeafAllocator K V N) : Prop where
  represents : Represents t alloc (fun _ => []) (fun i => [block N done i])
  size : t.size = leafCount N done.length
  nums : ∀ i < t.size, t.entryNum i = base.used + i
  used : alloc.used = base.used + t.size
  available : t.available = 1
  allocated : alloc.allocated = base.allocated
  leaves : ∀ p < base.used, alloc.leaves p = base.leaves p
  fresh : alloc.Fresh
  idle : t.Idle

theorem leafCount_succ_of_full (hN : 0 < N) {n : ℕ} (hn : 0 < n) (hfull : n % N = 0) :
    leafCount N (n + 1) = leafCount N n + 1 ∧ (n - 1) / N + 1 = n / N := by
  obtain ⟨q, rfl⟩ := Nat.dvd_of_mod_eq_zero hfull
  have hq : 0 < q := Nat.pos_of_mul_pos_left hn
  have hpred : (N * q - 1) / N = q - 1 := by
    rw [Nat.div_eq_iff hN]
    obtain ⟨r, rfl⟩ : ∃ r, q = r + 1 := ⟨q - 1, by omega⟩
    rw [Nat.mul_succ]
    have : N * r = r * N := Nat.mul_comm ..
    simp only [Nat.add_sub_cancel]
    omega
  rw [leafCount, leafCount, Nat.add_sub_cancel, hpred, Nat.mul_div_cancel_left q hN]
  omega

theorem leafCount_succ_of_room (hN : 0 < N) {n : ℕ} (hroom : n = 0 ∨ n % N ≠ 0) :
    leafCount N (n + 1) = leafCount N n ∧ leafCount N n = n / N + 1 := by
  rcases hroom with rfl | hroom
  · simp [leafCount]
  · have hpred : (n - 1) / N = n / N := by
      have hd := Nat.div_add_mod n N
      have hm := Nat.mod_lt n hN
      rw [Nat.div_eq_iff hN]
      have : N * (n / N) = n / N * N := Nat.mul_comm ..
      omega
    rw [leafCount, leafCount, Nat.add_sub_cancel, hpred]
    exact ⟨rfl, rfl⟩

omit [LinearOrder K] [OrderTop K] in
theorem length_last_block (hN : 0 < N) (done : List (K × V)) :
    (block N done (leafCount N done.length - 1)).length = N ↔ 0 < done.length ∧
    done.length % N = 0 := by
  have hd := Nat.div_add_mod done.length N
  have hm := Nat.mod_lt done.length hN
  have hc : N * (done.length / N) = done.length / N * N := Nat.mul_comm ..
  rw [block, List.length_take, List.length_drop]
  by_cases hfull : 0 < done.length ∧ done.length % N = 0
  · obtain ⟨h1, h2⟩ := leafCount_succ_of_full hN hfull.1 hfull.2
    have hlast : leafCount N done.length - 1 = done.length / N - 1 := by rw [leafCount]; omega
    have hpos : 1 ≤ done.length / N := h2 ▸ Nat.le_add_left 1 _
    rw [hlast, Nat.sub_mul, Nat.one_mul]
    have hN' : N ≤ done.length / N * N := Nat.le_mul_of_pos_left N hpos
    simp only [hfull, and_self, iff_true]
    omega
  · have hroom : done.length = 0 ∨ done.length % N ≠ 0 := by omega
    obtain ⟨_, h2⟩ := leafCount_succ_of_room hN hroom
    rw [h2, Nat.add_sub_cancel]
    simp only [hfull, iff_false]
    omega

theorem idle_trainEmplaceBack {t : LeafTable} (h : t.Idle) (n : ℕ) :
    (t.trainEmplaceBack n).Idle where
  cs := by
    rw [t.trainEmplaceBack_size, List.replicate_succ', ← h.cs]
    rfl
  te := fun i => by rw [t.trainEmplaceBack_lockBit, h.te i]

def curLeaf (N : ℕ) (base : LeafAllocator K V N) (done : List (K × V)) : ℕ :=
  base.used + (leafCount N done.length - 1)

namespace Filled

variable {base alloc : LeafAllocator K V N} {done : List (K × V)} {t : LeafTable}

theorem last_lt (h : Filled base done t alloc) : leafCount N done.length - 1 < t.size := by
  have hpos := leafCount_pos N done.length
  have hsize := h.size
  omega

theorem cur_nums (h : Filled base done t alloc) :
    t.chainNums (leafCount N done.length - 1) [] = [] ++ curLeaf N base done :: [] := by
  have hi : leafCount N done.length - 1 < t.size := h.last_lt
  rw [LeafTable.chainNums, h.nums _ hi]
  rfl

theorem cur_holds (h : Filled base done t alloc) :
    (alloc.leaves (curLeaf N base done)).Holds (block N done (leafCount N done.length - 1)) := by
  have hi : leafCount N done.length - 1 < t.size := h.last_lt
  have hf := h.represents.holds _ hi
  rw [h.cur_nums] at hf
  exact (List.forall₂_cons.mp hf).1

theorem isfull_iff (h : Filled base done t alloc) (hN : 0 < N) :
    (alloc.leaves (curLeaf N base done)).isfull = true ↔ 0 < done.length ∧ done.length % N = 0 := by
  rw [h.cur_holds.isfull_iff hN, length_last_block hN]

theorem last_room (h : Filled base done t alloc) (hN : 0 < N)
    (hroom : done.length = 0 ∨ done.length % N ≠ 0) :
    (block N done (leafCount N done.length - 1)).length < N := by
  refine lt_of_le_of_ne h.cur_holds.length_le fun heq => ?_
  have := (length_last_block hN done).mp heq
  omega

theorem fetch_nums (h : Filled base done t alloc) (hleaf : alloc.used < alloc.allocated) :
    ∀ i < (t.trainEmplaceBack alloc.used).size, (t.trainEmplaceBack alloc.used).entryNum i =
      base.used + i := by
  intro i hi
  rw [t.trainEmplaceBack_size] at hi
  rcases Nat.lt_succ_iff_lt_or_eq.mp hi with hi | rfl
  · rw [t.trainEmplaceBack_entryNum_lt _ hi, h.nums i hi]
  · rw [t.trainEmplaceBack_entryNum_last (hleaf.trans_le alloc.addressable), h.used]

theorem put (h : Filled base done t alloc) (hN : 0 < N) {e : K × V} (hk : e.1 < ⊤)
    (hlt : ∀ x ∈ done, x.1 < e.1) (hroom : done.length = 0 ∨ done.length % N ≠ 0) :
    Filled base (done ++ [e]) t (alloc.write (curLeaf N base done)
      ((alloc.leaves (curLeaf N base done)).insertNotFull e.1 e.2).2) := by
  obtain ⟨hcount, hlast⟩ := leafCount_succ_of_room hN hroom
  have hi : leafCount N done.length - 1 < t.size := h.last_lt
  have hcur := h.cur_holds
  have hlen := h.last_room hN hroom
  have hblock : ∀ x ∈ block N done (leafCount N done.length - 1), x.1 < e.1 := fun x hx =>
    hlt x (List.mem_of_mem_drop (List.mem_of_mem_take hx))
  have hnone : (block N done (leafCount N done.length - 1)).lookup e.1 = none :=
    lookup_eq_none.mpr fun x hx => (hblock x hx).ne
  have hput := Leaf.insertNotFull_holds hcur hk hnone hlen e.2
  rw [put_of_all_lt hblock] at hput
  have hchain : [block N done (leafCount N done.length - 1)] =
      [] ++ block N done (leafCount N done.length - 1) :: [] := rfl
  have hw := h.represents.write hi h.cur_nums hchain rfl hput
  rw [hlast, Nat.add_sub_cancel] at hw
  rw [List.nil_append, update_blocks hN] at hw
  have hne : ∀ p < base.used, p ≠ curLeaf N base done := fun p hp => by
    rw [curLeaf]
    omega
  refine ⟨hw, ?_, h.nums, h.used, h.available, h.allocated, fun p hp => ?_,
    ⟨h.fresh.usedLe, fun p hp hlt => ?_⟩, h.idle⟩
  · rw [h.size, List.length_append, List.length_singleton, hcount]
  · rw [alloc.write_leaves_ne (hne p hp), h.leaves p hp]
  · rw [alloc.write_leaves_ne]
    · exact h.fresh.blank p hp hlt
    · have hu := h.used
      rw [LeafAllocator.write_used] at hp
      rw [curLeaf]
      omega

theorem fetch (h : Filled base done t alloc) (hN : 0 < N)
    (hfull : 0 < done.length ∧ done.length % N = 0) (hleaf : alloc.used < alloc.allocated)
    {e : K × V} (hk : e.1 < ⊤) : Filled base (done ++ [e]) (t.trainEmplaceBack alloc.used)
      (({ alloc with used := alloc.used + 1 } : LeafAllocator K V N).write alloc.used
        ((alloc.leaves alloc.used).insertNotFull e.1 e.2).2) := by
  obtain ⟨hcount, hlast⟩ := leafCount_succ_of_full hN hfull.1 hfull.2
  have hsize : t.size = done.length / N := by rw [h.size, leafCount, hlast]
  have hn : alloc.used < 2 ^ 48 := hleaf.trans_le alloc.addressable
  have hmul : done.length / N * N = done.length :=
    Nat.div_mul_cancel (Nat.dvd_of_mod_eq_zero hfull.2)
  have hnil : block N done t.size = [] := block_eq_nil (by rw [hsize, hmul])
  have happ := h.represents.append rfl (by rw [hnil]) hleaf
  have hi : t.size < (t.trainEmplaceBack alloc.used).size := by
    rw [t.trainEmplaceBack_size]
    omega
  have hput := Leaf.insertNotFull_holds (h.represents.blank _ le_rfl hleaf) hk
    (by rfl) (by simpa using hN) e.2
  have hnums : (t.trainEmplaceBack alloc.used).chainNums t.size [] = [] ++ alloc.used :: [] := by
    rw [LeafTable.chainNums, t.trainEmplaceBack_entryNum_last hn]
    rfl
  have hchain : [block N done t.size] = [] ++ [] :: [] := by rw [hnil]; rfl
  have hw := happ.write hi hnums hchain rfl hput
  have hblocks := update_blocks hN done e
  rw [← hsize, hnil, List.nil_append] at hblocks
  rw [List.nil_append, AscendingMap.put, hblocks] at hw
  refine ⟨hw, ?_, h.fetch_nums hleaf, ?_, ?_, h.allocated, fun p hp => ?_,
    ⟨hleaf, fun p hp hlt => ?_⟩, idle_trainEmplaceBack h.idle _⟩
  · rw [t.trainEmplaceBack_size, h.size, List.length_append, List.length_singleton, hcount]
  · rw [t.trainEmplaceBack_size, LeafAllocator.write_used, h.used]
    rfl
  · exact h.available
  · have hu := h.used
    rw [LeafAllocator.write_leaves_ne _ (by omega)]
    exact h.leaves p hp
  · have hlt' : alloc.used < p := hp
    rw [LeafAllocator.write_leaves_ne _ hlt'.ne']
    exact h.fresh.blank p hlt'.le hlt

end Filled

theorem fill_ok (hN : 0 < N) {base : LeafAllocator K V N} {data : List (K × V)} :
    ∀ {done : List (K × V)} {t : LeafTable} {alloc : LeafAllocator K V N},
      Filled base done t alloc → Ascending (done ++ data) → (∀ e ∈ data, e.1 < ⊤) →
      (base.used + leafCount N (done ++ data).length ≤ base.allocated →
        ∃ r, fill data t alloc (curLeaf N base done) = .ok r) ∧
      ∀ r, fill data t alloc (curLeaf N base done) = .ok r →
        Filled base (done ++ data) r.1 r.2 := by
  induction data with
  | nil =>
    intro done t alloc h _ _
    rw [List.append_nil, fill]
    refine ⟨fun _ => ⟨_, rfl⟩, fun r hr => ?_⟩
    obtain rfl := Except.ok.inj hr
    exact h
  | cons e data ih =>
    intro done t alloc h hasc hbelow
    have hcut : done ++ e :: data = (done ++ [e]) ++ data := by simp
    have hk := hbelow e List.mem_cons_self
    have hrest : ∀ x ∈ data, x.1 < ⊤ := fun x hx => hbelow x (List.mem_cons_of_mem _ hx)
    have hlt : ∀ x ∈ done, x.1 < e.1 := fun x hx =>
      (ascending_append.mp hasc).2.2 x hx e List.mem_cons_self
    rw [hcut] at hasc ⊢
    by_cases hfull : 0 < done.length ∧ done.length % N = 0
    · obtain ⟨hcount, _⟩ := leafCount_succ_of_full hN hfull.1 hfull.2
      have hu : alloc.used = base.used + leafCount N done.length := by rw [h.used, h.size]
      have hcur : alloc.used = curLeaf N base (done ++ [e]) := by
        rw [curLeaf, List.length_append, List.length_singleton, hcount, hu, Nat.add_sub_cancel]
      rw [fill, if_pos ((h.isfull_iff hN).mpr hfull)]
      by_cases hleaf : alloc.used < alloc.allocated
      · rw [LeafAllocator.fetchNewLeaf_ok hleaf, ok_bind]
        have hstep := h.fetch hN hfull hleaf hk
        have hih := ih hstep hasc hrest
        rw [← hcur] at hih
        exact hih
      · have hno : alloc.fetchNewLeaf = .error .leavesInsufficient := if_neg hleaf
        rw [hno, error_bind]
        refine ⟨fun henough => absurd ?_ hleaf, fun r hr => by cases hr⟩
        have hmono : leafCount N (done ++ [e]).length ≤
            leafCount N ((done ++ [e]) ++ data).length := by
          rw [leafCount, leafCount]
          refine Nat.succ_le_succ (Nat.div_le_div_right ?_)
          simp only [List.length_append]
          omega
        rw [List.length_append, List.length_singleton, hcount] at hmono
        rw [hu, h.allocated]
        omega
    · have hroom : done.length = 0 ∨ done.length % N ≠ 0 := by omega
      obtain ⟨hcount, _⟩ := leafCount_succ_of_room hN hroom
      have hcur : curLeaf N base done = curLeaf N base (done ++ [e]) := by
        rw [curLeaf, curLeaf, List.length_append, List.length_singleton, hcount]
      rw [fill, if_neg (fun hf => hfull ((h.isfull_iff hN).mp hf))]
      have hih := ih (h.put hN hk hlt hroom) hasc hrest
      rw [← hcur] at hih
      exact hih

theorem Filled.start {base : LeafAllocator K V N} (hfresh : base.Fresh)
    (hleaf : base.used < base.allocated) (raw : Fin kSynonymMax → TableEntry) :
    Filled base [] ((LeafTable.construct raw).trainEmplaceBack base.used)
    { base with used := base.used + 1 } := by
  have hchain : (fun i => [block N ([] : List (K × V)) i]) (LeafTable.construct raw).size =
      [[]] := by
    simp [block]
  have happ := (Represents.empty hfresh raw (fun _ => []) fun i => [block N [] i]).append rfl hchain
    hleaf
  have hcount : leafCount N ([] : List (K × V)).length = 1 := by simp [leafCount]
  refine ⟨happ, hcount.symm, fun i hi => ?_, rfl, ?_, rfl, fun _ _ => rfl,
    ⟨hleaf, fun p hp hlt => hfresh.blank p (Nat.le_of_succ_le hp) hlt⟩,
    idle_trainEmplaceBack ⟨rfl, fun i => rfl⟩ _⟩
  · have h0 : i = 0 := Nat.lt_one_iff.mp hi
    rw [h0]
    exact (LeafTable.construct raw).trainEmplaceBack_entryNum_last (hleaf.trans_le base.addressable)
  · exact LeafTable.construct_available raw

/-- The constructor on ascending data below the sentinel. -/
theorem construct_ok (hN : 0 < N) {base : LeafAllocator K V N} (hfresh : base.Fresh)
    {data : List (K × V)} (hasc : Ascending data) (hbelow : ∀ e ∈ data, e.1 < ⊤)
    (raw : Fin kSynonymMax → TableEntry) (slope intercept : F) :
    (base.used + leafCount N data.length ≤ base.allocated →
      ∃ r, construct raw slope intercept data base = .ok r) ∧
    ∀ r, construct raw slope intercept data base = .ok r →
      r.1.model = ⟨slope, intercept⟩ ∧ r.1.capacity = data.length ∧
        Filled base data r.1.ltable r.2 := by
  by_cases hleaf : base.used < base.allocated
  · have hempty := Filled.start hfresh hleaf raw
    have hcur : base.used = curLeaf N base ([] : List (K × V)) := by simp [curLeaf, leafCount]
    obtain ⟨hex, hall⟩ := fill_ok hN hempty (show Ascending ([] ++ data) from hasc) hbelow
    rw [← hcur] at hex hall
    constructor
    · intro henough
      obtain ⟨r, hr⟩ := hex henough
      rw [construct, LeafAllocator.fetchNewLeaf_ok hleaf, ok_bind, hr, ok_bind]
      exact ⟨_, rfl⟩
    · intro r hr
      rw [construct, LeafAllocator.fetchNewLeaf_ok hleaf, ok_bind] at hr
      cases hf : fill data ((LeafTable.construct raw).trainEmplaceBack base.used)
        { base with used := base.used + 1 } base.used with
      | error e => simp [hf] at hr
      | ok q =>
        rw [hf, ok_bind] at hr
        obtain rfl := Except.ok.inj hr
        exact ⟨rfl, rfl, hall q hf⟩
  · have hno : base.fetchNewLeaf = .error .leavesInsufficient := if_neg hleaf
    rw [construct, hno, error_bind]
    refine ⟨fun henough => absurd ?_ hleaf, fun r hr => by cases hr⟩
    have hpos := leafCount_pos N data.length
    omega

theorem construct_model {data : List (K × V)} {base : LeafAllocator K V N}
    {raw : Fin kSynonymMax → TableEntry} {slope intercept : F}
    {r : SubModel F × LeafAllocator K V N} (hr : construct raw slope intercept data base = .ok r) :
    r.1.model = ⟨slope, intercept⟩ ∧ r.1.capacity = data.length := by
  obtain ⟨_, _, hr⟩ := bind_eq_ok hr
  obtain ⟨_, _, hr⟩ := bind_eq_ok hr
  obtain rfl := Except.ok.inj hr
  exact ⟨rfl, rfl⟩

theorem Filled.sound {base alloc : LeafAllocator K V N} {data : List (K × V)} {t : LeafTable}
    (h : Filled base data t alloc) (hasc : Ascending data) :
    Sound t alloc (fun _ => []) (fun i => [block N data i]) where
  toRepresents := h.represents
  ordered := fun i _ => by
    refine ⟨by simp, ?_, by simp⟩
    rw [List.flatten_singleton, block]
    exact (hasc.sublist (List.drop_sublist ..)).sublist (List.take_sublist ..)
  idle := h.idle

end SubModel
end Rolex
