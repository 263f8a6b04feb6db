import Rolex.RebuiltIndex
import Rolex.TrainedHomes

/-!
`LearnedCache::search` after inserts and updates on the memory node. The copy of the table is the
trained one, so the compute node reads the own leaves of the entries in the window, and no synonym
leaf.
-/

namespace Rolex
open Bytes AscendingMap BlockChain

variable {F V : Type} {N : ℕ} {fmt : DoubleFormat F} {epsilon : ℕ}

/-! ### The copy -/

/-- `c` is what a compute node reads from the model region of `r`, which was trained on `data`. -/
structure Loaded (fmt : DoubleFormat F) (epsilon : ℕ) (data : List (Key × V)) (r : RolexIndex F V N)
    (c : LearnedCache F) : Prop where
  stored : fmt.Stored
  trained : ∃ (start : RolexIndex F V N) (mem : Memory) (t : ℕ) (raw : ℕ → Fin kSynonymMax →
    TableEntry), ModelAllocator.construct mem t = .ok start.RM.modelAllocator ∧
    start.RM.leafAllocator.Fresh ∧
      start.models = [] ∧ start.modelKeys = [] ∧ start.train fmt epsilon raw data = .ok r ∧
      r.models.length < start.RM.modelAllocator.maxUpperNum
  serialized : ∀ m ∈ r.models, (m.serialize fmt).length < 2 ^ 31
  read : ∃ raw, LearnedCache.readRemoteIndex fmt raw r.RM.modelAllocator = .ok c

namespace Loaded

variable {data : List (Key × V)} {r : RolexIndex F V N} {c : LearnedCache F}

theorem copy (h : Loaded fmt epsilon data r c) :
    c.modelKeys = r.modelKeys ∧ c.models = r.models.map SubModel.unlocked := by
  obtain ⟨start, mem, t, raw, halloc, _, hmodels, hkeys, hok, hnum⟩ := h.trained
  obtain ⟨raw', hread⟩ := h.read
  obtain ⟨offs, hregion, hcount, hnum', hcap⟩ :=
    region_of_train halloc hmodels hkeys hok hnum h.serialized
  obtain ⟨_, hback⟩ :=
    hregion.read_back h.stored hcount hnum' (fun m hm => (hcap m hm).trans (by norm_num))
    h.serialized raw' raw'
  rw [hback] at hread
  obtain rfl := Except.ok.inj hread
  exact ⟨rfl, rfl⟩

theorem layout (h : Loaded fmt epsilon data r c) (hN : 0 < N) :
    (∃ slots chains, IndexSound r slots chains) ∧ ∀ m ∈ r.models, m.ltable.size < 2 ^ 31 := by
  obtain ⟨start, mem, t, raw, _, hfresh, hmodels, hkeys, hok, _⟩ := h.trained
  have hasc := ascending_of_train hok
  by_cases hne : data = []
  · subst hne
    obtain rfl := RolexIndex.eq_of_train_nil hok
    refine ⟨⟨fun _ _ => [], fun _ _ => [], ⟨fun i m hm => ?_, fun i j m m' _ hm => ?_⟩⟩,
      fun m hm => ?_⟩
    all_goals simp [hmodels] at hm
  obtain ⟨hlen, segs, r₁, alloc, happ, rfl, _, rfl⟩ := RolexIndex.train_appended hne hok
  have hsound := happ.indexSound hN hfresh hmodels hkeys hasc
  refine ⟨⟨_, _, ⟨hsound.sound, hsound.apart⟩⟩, fun m hm => ?_⟩
  obtain ⟨i, hi, rfl⟩ := List.mem_iff_getElem.mp hm
  have hi : i < r₁.models.length := hi
  have hi' : i < segs.length := by rwa [← (happ.built hmodels).1]
  have hsize := happ.sizes hN hfresh hmodels hkeys hasc (List.getElem?_eq_getElem hi)
    (List.getElem?_eq_getElem hi')
  have hle := (List.sublist_flatten_of_mem (List.getElem_mem hi')).length_le
  have hdiv := Nat.div_le_self (segs[i].length - 1) N
  rw [SubModel.leafCount] at hsize
  exact hsize.trans_lt (by omega)

end Loaded

/-! ### Reading the window -/

def ownSearch {K : Type} [LinearOrder K] [OrderTop K] (t : LeafTable) (alloc : LeafAllocator K V N)
    (k : K) (lo : ℕ) : ℕ → Option V
  | 0 => none
  | count + 1 => ((alloc.leaves (t.entryNum (lo + count))).search k).or
      (ownSearch t alloc k lo count)

def synonymSearch {K : Type} [LinearOrder K] [OrderTop K] (alloc : LeafAllocator K V N) (k : K)
    (ps : List ℕ) : Option V :=
  ps.reverse.findSome? fun p => (alloc.leaves p).search k

section Leaves

variable {t t₀ : LeafTable} {alloc : LeafAllocator Key V N} {slots : ℕ → List ℕ}
  {chains : ℕ → List (List (Key × V))} {k : Key}

theorem window_succ (h : Represents t alloc slots chains) (hsize : t₀.size = t.size)
    (hnum : t₀.entryNum = t.entryNum) {lo count : ℕ} (hi : lo + count < t.size) :
    ∃ a : LeafAddr, a.addr.leafNum = t.entryNum (lo + count) ∧
      LearnedCache.readLeaf alloc a.addr.leafNum = .ok (alloc.leaves (t.entryNum (lo + count))) ∧
      (((t₀.table.zipIdx.drop lo).take (count + 1)).map fun q => (⟨q.2, q.1⟩ : LeafAddr)).reverse =
        a :: (((t₀.table.zipIdx.drop lo).take count).map fun q =>
          (⟨q.2, q.1⟩ : LeafAddr)).reverse := by
  have hi₀ : lo + count < t₀.table.length := by
    have : t₀.table.length = t₀.size := rfl
    omega
  have hlen : count < (t₀.table.zipIdx.drop lo).length := by
    rw [List.length_drop, List.length_zipIdx]
    omega
  have hnumi : t₀.table[lo + count].leafNum.val = t.entryNum (lo + count) := by
    rw [← hnum, LeafTable.entryNum, List.getElem?_eq_getElem hi₀]
    rfl
  have hlt := h.numsUsed _ hi _ (List.mem_cons_self : t.entryNum (lo + count) ∈ t.chainNums _ _)
  refine ⟨⟨lo + count, t₀.table[lo + count]⟩, hnumi, ?_, ?_⟩
  · rw [hnumi]
    exact if_pos (hlt.trans_le h.usedLe)
  · rw [List.take_succ_eq_append_getElem hlen, List.map_append, List.map_singleton,
      List.reverse_append, List.reverse_singleton, List.singleton_append, List.getElem_drop,
      List.getElem_zipIdx, Nat.zero_add]

theorem searchLeaves_ok (h : Represents t alloc slots chains) (hsize : t₀.size = t.size)
    (hnum : t₀.entryNum = t.entryNum) {lo count : ℕ} (hc : lo + count ≤ t.size) :
    LearnedCache.searchLeaves alloc k
      (((t₀.table.zipIdx.drop lo).take count).map fun q => (⟨q.2, q.1⟩ : LeafAddr)).reverse =
        .ok (ownSearch t alloc k lo count) := by
  induction count with
  | zero =>
    rw [List.take_zero]
    rfl
  | succ count ih =>
    have hi : lo + count < t.size := by omega
    obtain ⟨a, -, hread, hwindow⟩ := window_succ h hsize hnum hi
    rw [hwindow, LearnedCache.searchLeaves, hread, ok_bind, ih (by omega), ownSearch]
    cases (alloc.leaves (t.entryNum (lo + count))).search k <;> rfl

end Leaves

/-! ### Where a pair is -/

section Places

variable {K : Type} [LinearOrder K] [OrderTop K]

/-- The own leaf of entry `i` answers `v`: the pair is in it, or an empty slot passes for the
key. -/
def InOwnLeaf (t : LeafTable) (alloc : LeafAllocator K V N) (k : K) (i : ℕ) (v : V) : Prop :=
  ∃ p, t.entryLeaf alloc i = .ok p ∧ (alloc.leaves p).search k = some v

def InSynonymLeaf (t : LeafTable) (alloc : LeafAllocator K V N) (k : K) (i : ℕ) (v : V) : Prop :=
  ∃ leaves, t.chainLeaves alloc i = .ok leaves ∧ ∃ front p back, leaves.tail = front ++ p :: back ∧
    (alloc.leaves p).search k = some v ∧ ∀ q ∈ back, (alloc.leaves q).search k = none

def InEarlierLeaf (t : LeafTable) (alloc : LeafAllocator K V N) (k : K) (lo i : ℕ) (v : V) : Prop :=
  ∃ j, lo ≤ j ∧ j < i ∧ InOwnLeaf t alloc k j v ∧ ∀ j', j < j' → j' < i →
    ∀ w, ¬InOwnLeaf t alloc k j' w

/-- The own leaf of the entry that the window leads to answers, or the synonym leaves behind that
entry and the earlier own leaves answer the same, most often nothing. The window may be empty. -/
def SeenAlike (t : LeafTable) (alloc : LeafAllocator K V N) (k : K) (lo hi : ℕ) : Prop :=
  hi < t.size → ∃ p, t.pickEntry alloc k lo hi = .ok p ∧
    ((lo ≤ hi ∧ ∃ v, InOwnLeaf t alloc k p.1 v) ∨
      ∀ v, InOwnLeaf t alloc k p.1 v ∨ InSynonymLeaf t alloc k p.1 v ↔
      InEarlierLeaf t alloc k lo p.1 v)

variable {t : LeafTable} {alloc : LeafAllocator K V N} {slots : ℕ → List ℕ}
  {chains : ℕ → List (List (K × V))} {k : K} {i lo hi : ℕ} {v : V}

theorem Represents.inOwnLeaf_iff (h : Represents t alloc slots chains) (hi : i < t.size) :
    InOwnLeaf t alloc k i v ↔ (alloc.leaves (t.entryNum i)).search k = some v := by
  rw [InOwnLeaf, h.entryLeaf_ok hi]
  constructor
  · rintro ⟨p, hp, hv⟩
    rwa [Except.ok.inj hp]
  · exact fun hv => ⟨_, rfl, hv⟩

theorem Represents.inSynonymLeaf_iff (h : Represents t alloc slots chains) (hi : i < t.size) :
    InSynonymLeaf t alloc k i v ↔ synonymSearch alloc k ((slots i).map t.slotNum) = some v := by
  have htail : (t.chainNums i (slots i)).tail = (slots i).map t.slotNum := rfl
  rw [InSynonymLeaf, h.chainLeaves_ok hi, synonymSearch, List.findSome?_eq_some_iff]
  constructor
  · rintro ⟨leaves, hl, front, p, back, heq, hv, hno⟩
    obtain rfl := Except.ok.inj hl
    rw [htail] at heq
    exact ⟨back.reverse, p, front.reverse, by rw [heq]; simp, hv,
      fun q hq => hno q (List.mem_reverse.mp hq)⟩
  · rintro ⟨back, p, front, heq, hv, hno⟩
    have heq' := congrArg List.reverse heq
    rw [List.reverse_reverse] at heq'
    exact ⟨_, rfl, front.reverse, p, back.reverse, by rw [htail, heq']; simp, hv,
      fun q hq => hno q (List.mem_reverse.mp hq)⟩

theorem Represents.inEarlierLeaf_iff (h : Represents t alloc slots chains) {count : ℕ}
    (hc : lo + count ≤ t.size) :
    InEarlierLeaf t alloc k lo (lo + count) v ↔ ownSearch t alloc k lo count = some v := by
  induction count with
  | zero =>
    refine iff_of_false ?_ (by simp [ownSearch])
    rintro ⟨j, h1, h2, _⟩
    omega
  | succ count ih =>
    have hi : lo + count < t.size := by omega
    have hown := fun w => h.inOwnLeaf_iff (k := k) (v := w) hi
    rw [ownSearch]
    cases hl : (alloc.leaves (t.entryNum (lo + count))).search k with
    | some w =>
      rw [Option.some_or, Option.some.injEq]
      constructor
      · rintro ⟨j, h1, h2, hv, hno⟩
        rcases eq_or_lt_of_le (Nat.lt_succ_iff.mp h2) with rfl | hlt
        · exact Option.some.inj (hl.symm.trans ((hown v).mp hv))
        · exact absurd ((hown w).mpr hl) (hno _ hlt (Nat.lt_succ_self _) w)
      · rintro rfl
        exact ⟨lo + count, Nat.le_add_right _ _, Nat.lt_succ_self _, (hown w).mpr hl,
          fun j' h1 h2 => by omega⟩
    | none =>
      rw [Option.none_or, ← ih (by omega)]
      constructor
      · rintro ⟨j, h1, h2, hv, hno⟩
        rcases eq_or_lt_of_le (Nat.lt_succ_iff.mp h2) with rfl | hlt
        · rw [(hown v).mp hv] at hl
          cases hl
        · exact ⟨j, h1, hlt, hv, fun j' h3 h4 => hno j' h3 (h4.trans (Nat.lt_succ_self _))⟩
      · rintro ⟨j, h1, h2, hv, hno⟩
        refine ⟨j, h1, h2.trans (Nat.lt_succ_self _), hv, fun j' h3 h4 w hw => ?_⟩
        rcases eq_or_lt_of_le (Nat.lt_succ_iff.mp h4) with rfl | hlt
        · rw [(hown w).mp hw] at hl
          cases hl
        · exact hno j' h3 hlt w hw

/-! ### The search of the memory node -/

theorem Represents.searchFromBack_eq (h : Represents t alloc slots chains) (hi : i < t.size) {m : ℕ}
    (hm : m ≤ (slots i).length) : t.searchFromBack alloc k (slots i) m =
      .ok (synonymSearch alloc k (((slots i).take m).map t.slotNum)) := by
  induction m with
  | zero => rfl
  | succ m ih =>
    have hget : (slots i).getD m 0 = (slots i)[m] := List.getD_eq_getElem _ _ hm
    rw [LeafTable.searchFromBack, hget, h.slotLeaf_ok hi (List.getElem_mem hm), ok_bind,
      ih (Nat.le_of_succ_le hm), List.take_succ_eq_append_getElem hm, synonymSearch, synonymSearch,
      List.map_append, List.reverse_append, List.map_singleton, List.reverse_singleton,
      List.singleton_append, List.findSome?_cons]
    cases (alloc.leaves (t.slotNum (slots i)[m])).search k <;> rfl

theorem Represents.searchEntry_eq (h : Represents t alloc slots chains) (hi : i < t.size) :
    t.searchEntry alloc k i (t.entryNum i) = .ok (((alloc.leaves (t.entryNum i)).search k).or
      (synonymSearch alloc k ((slots i).map t.slotNum))) := by
  rw [LeafTable.searchEntry]
  cases (alloc.leaves (t.entryNum i)).search k with
  | some v => rfl
  | none =>
    dsimp only
    rw [LeafTable.searchSynonym, h.synonymLeaves_ok hi, ok_bind, h.searchFromBack_eq hi le_rfl,
      List.take_length, Option.none_or]

theorem Represents.pickEntry_exists (h : Represents t alloc slots chains) (hle : lo ≤ hi)
    (hlt : hi < t.size) : ∃ i, t.pickEntry alloc k lo hi = .ok (i, t.entryNum i) ∧ lo ≤ i ∧ i ≤ hi ∧
      ∀ j, i < j → j ≤ hi → (alloc.leaves (t.entryNum j)).insertHere k = false := by
  induction hi, hle using Nat.le_induction with
  | base =>
    have hfirst : t.pickEntry alloc k lo lo =
        (t.entryLeaf alloc lo >>= fun leaf => .ok (lo, leaf)) := by
      cases lo with
      | zero => rfl
      | succ i => rw [LeafTable.pickEntry, if_neg (by omega)]
    refine ⟨lo, ?_, le_rfl, le_rfl, fun j h1 h2 => by omega⟩
    rw [hfirst, h.entryLeaf_ok hlt, ok_bind]
  | succ n hle ih =>
    rw [LeafTable.pickEntry, if_pos (by omega), h.entryLeaf_ok hlt, ok_bind]
    cases hhere : (alloc.leaves (t.entryNum (n + 1))).insertHere k with
    | true => exact ⟨n + 1, if_pos rfl, by omega, le_rfl, fun j h1 h2 => by omega⟩
    | false =>
      obtain ⟨i, hpick, hlo, hhi, hlater⟩ := ih (by omega)
      refine ⟨i, (if_neg Bool.false_ne_true).trans hpick, hlo, by omega, fun j h1 h2 => ?_⟩
      rcases eq_or_lt_of_le h2 with rfl | h2
      · exact hhere
      · exact hlater j h1 (Nat.lt_succ_iff.mp h2)

theorem Leaf.search_of_not_insertHere {leaf : Leaf K V N} (h : leaf.insertHere k = false) :
    leaf.search k = none := by
  rw [Leaf.insertHere, decide_eq_false_iff_not, not_le] at h
  rw [Leaf.search, if_pos h]

theorem ownSearch_eq (hlo : lo ≤ i) (hhi : i ≤ hi)
    (hlater : ∀ j, i < j → j ≤ hi → (alloc.leaves (t.entryNum j)).insertHere k = false) :
    ownSearch t alloc k lo (hi + 1 - lo) =
      ((alloc.leaves (t.entryNum i)).search k).or (ownSearch t alloc k lo (i - lo)) := by
  induction hi, hhi using Nat.le_induction with
  | base =>
    rw [show i + 1 - lo = (i - lo) + 1 by omega, ownSearch, show lo + (i - lo) = i by omega]
  | succ n hle ih =>
    have hnone := Leaf.search_of_not_insertHere (hlater (n + 1) (by omega) le_rfl)
    rw [show n + 1 + 1 - lo = (n + 1 - lo) + 1 by omega, ownSearch,
      show lo + (n + 1 - lo) = n + 1 by omega, hnone, Option.none_or]
    exact ih fun j h1 h2 => hlater j h1 (by omega)

end Places

/-! ### The window -/

/-- The predicted leaf numbers, as the memory node converts them, need no clamping. -/
structure WindowNonneg (fmt : DoubleFormat F) (epsilon : ℕ) (m : SubModel F) (N : ℕ)
    (key : Key) : Prop where
  lo : 0 ≤ toInt32 ((m.model.predict fmt epsilon key m.capacity).lo / N)
  hi : 0 ≤ toInt32 ((m.model.predict fmt epsilon key m.capacity).hi / N)

theorem mod_of_toInt32_nonneg {n : ℕ} (h : 0 ≤ toInt32 n) :
    n % 2 ^ 32 = (max (toInt32 n) 0).toNat := by
  rw [toInt32] at h ⊢
  omega

theorem WindowNonneg.getLeafAddr_eq {m : SubModel F} {key : Key}
    (h : WindowNonneg fmt epsilon m N key) : m.getLeafAddr fmt epsilon N key =
      if (m.window fmt epsilon N key).2 < m.ltable.table.length then
        m.ltable.leafAddrs ((m.window fmt epsilon N key).2 + 1 - (m.window fmt epsilon N key).1)
          (m.window fmt epsilon N key).1
      else .error .windowOutsideTable := by
  rw [SubModel.getLeafAddr, LeafTable.getLeafAddr, mod_of_toInt32_nonneg h.lo,
    mod_of_toInt32_nonneg h.hi, SubModel.window]

/-! ### Both searches -/

variable {data : List (Key × V)} {r r' : RolexIndex F V N} {c : LearnedCache F}
  {slots : ℕ → ℕ → List ℕ} {chains : ℕ → ℕ → List (List (Key × V))} {key : Key} {m : SubModel F}

theorem Loaded.modelForKey_eq (h : Loaded fmt epsilon data r c) (hshape : SameShape r r') :
    c.modelForKey key = r'.modelForKey key := by
  obtain ⟨hkeys, hmodels⟩ := h.copy
  rw [hshape.modelForKey, LearnedCache.modelForKey, RolexIndex.modelForKey, hkeys, hmodels,
    List.length_map]

theorem Loaded.model_eq (h : Loaded fmt epsilon data r c) (hshape : SameShape r r')
    (hm : r'.models[r'.modelForKey key]? = some m) :
    ∃ m₀, c.models[c.modelForKey key]? = some m₀ ∧ m₀.model = m.model ∧ m₀.capacity = m.capacity ∧
      m₀.ltable.size = m.ltable.size ∧ m₀.ltable.entryNum = m.ltable.entryNum := by
  have hi : r'.modelForKey key < r.models.length := by
    have := (List.getElem?_eq_some_iff.mp hm).1
    have hlen := hshape.length
    omega
  obtain ⟨h1, h2, h3, h4⟩ := hshape.model _ _ m (List.getElem?_eq_getElem hi) hm
  refine ⟨SubModel.unlocked r.models[r'.modelForKey key], ?_, h1.symm, h2.symm, h3.symm, h4.symm⟩
  rw [h.modelForKey_eq hshape, h.copy.2, List.getElem?_map, List.getElem?_eq_getElem hi]
  rfl

theorem Loaded.search_eq (h : Loaded fmt epsilon data r c) (hshape : SameShape r r')
    (hsound : IndexSound r' slots chains) (hm : r'.models[r'.modelForKey key]? = some m)
    (hw : WindowNonneg fmt epsilon m N key) :
    c.search fmt epsilon r'.RM.leafAllocator key =
      if (m.window fmt epsilon N key).2 < m.ltable.size then
        .ok (ownSearch m.ltable r'.RM.leafAllocator key (m.window fmt epsilon N key).1
          ((m.window fmt epsilon N key).2 + 1 - (m.window fmt epsilon N key).1))
      else .error .windowOutsideTable := by
  obtain ⟨m₀, hm₀, hmodel, hcap, hsize, hnum⟩ := h.model_eq hshape hm
  have hw₀ : WindowNonneg fmt epsilon m₀ N key := by
    constructor
    · rw [hmodel, hcap]
      exact hw.lo
    · rw [hmodel, hcap]
      exact hw.hi
  have hwin : m₀.window fmt epsilon N key = m.window fmt epsilon N key := by
    rw [SubModel.window, SubModel.window, hmodel, hcap]
  have hlen : m₀.ltable.table.length = m.ltable.size := hsize
  rw [LearnedCache.search, LearnedCache.leaves, hm₀]
  dsimp only
  rw [hw₀.getLeafAddr_eq, hwin, hlen]
  generalize m.window fmt epsilon N key = w
  obtain ⟨lo, hi⟩ := w
  dsimp only
  split
  · rename_i hlt
    rcases le_or_gt lo hi with hle | hgt
    · rw [m₀.ltable.leafAddrs_ok (by omega), ok_bind]
      exact searchLeaves_ok (hsound.sound _ m hm).toRepresents hsize hnum (by omega)
    · rw [Nat.sub_eq_zero_of_le hgt, LeafTable.leafAddrs, ok_bind]
      rfl
  · rfl

theorem search_iff_seenAlike {t : LeafTable} {alloc : LeafAllocator Key V N} {slots : ℕ → List ℕ}
    {chains : ℕ → List (List (Key × V))} (h : Represents t alloc slots chains) {lo hi : ℕ}
    (hlt : hi < t.size) : .ok (ownSearch t alloc key lo (hi + 1 - lo)) = t.search alloc key lo hi ↔
    SeenAlike t alloc key lo hi := by
  have halike : ∀ p, t.pickEntry alloc key lo hi = .ok p → (SeenAlike t alloc key lo hi ↔
      ((lo ≤ hi ∧ ∃ v, InOwnLeaf t alloc key p.1 v) ∨
        ∀ v, InOwnLeaf t alloc key p.1 v ∨ InSynonymLeaf t alloc key p.1 v ↔
        InEarlierLeaf t alloc key lo p.1 v)) := by
    intro p hp
    constructor
    · intro hs
      obtain ⟨q, hq, hs⟩ := hs hlt
      obtain rfl := Except.ok.inj (hp.symm.trans hq)
      exact hs
    · exact fun hs _ => ⟨p, hp, hs⟩
  have hown := fun i hi v => h.inOwnLeaf_iff (k := key) (i := i) (v := v) hi
  have hsyn := fun i hi v => h.inSynonymLeaf_iff (k := key) (i := i) (v := v) hi
  rcases le_or_gt lo hi with hle | hgt
  · obtain ⟨i, hpick, hlo, hhi, hlater⟩ := h.pickEntry_exists (k := key) hle hlt
    have his : i < t.size := hhi.trans_lt hlt
    have hsearch : t.search alloc key lo hi = t.searchEntry alloc key i (t.entryNum i) := by
      rw [LeafTable.search, if_pos hlt, hpick, ok_bind]
    have hcount : lo + (i - lo) = i := by omega
    have hearly := fun v =>
      h.inEarlierLeaf_iff (k := key) (v := v) (by omega : lo + (i - lo) ≤ t.size)
    rw [hcount] at hearly
    rw [hsearch, h.searchEntry_eq his, ownSearch_eq hlo hhi hlater, halike _ hpick]
    simp only [hown i his, hsyn i his, hearly, hle, true_and]
    cases (alloc.leaves (t.entryNum i)).search key with
    | some v => simp
    | none =>
      simp only [Option.none_or, Except.ok.injEq, reduceCtorEq, exists_false, false_or]
      exact ⟨fun heq v => by rw [heq], fun hall => (Option.ext hall).symm⟩
  · rw [Nat.sub_eq_zero_of_le hgt, ownSearch]
    by_cases hlo : lo < t.size
    · have hpick : t.pickEntry alloc key lo hi = .ok (lo, t.entryNum lo) := by
        rw [pickEntry_of_gt hgt, h.entryLeaf_ok hlo, ok_bind]
      have hsearch : t.search alloc key lo hi = t.searchEntry alloc key lo (t.entryNum lo) := by
        rw [LeafTable.search, if_pos hlt, hpick, ok_bind]
      have hearly := fun v => h.inEarlierLeaf_iff (k := key) (v := v) (by omega : lo + 0 ≤ t.size)
      rw [Nat.add_zero] at hearly
      rw [hsearch, h.searchEntry_eq hlo, halike _ hpick]
      simp only [hown lo hlo, hsyn lo hlo, hearly, hgt.not_ge, false_and, false_or, ownSearch]
      cases (alloc.leaves (t.entryNum lo)).search key with
      | some v =>
        refine iff_of_false (by simp) fun hall => ?_
        cases (hall v).mp (Or.inl rfl)
      | none =>
        simp only [Option.none_or, Except.ok.injEq, reduceCtorEq, false_or, iff_false]
        refine ⟨fun heq v hv => ?_, fun hall => (Option.eq_none_iff_forall_ne_some.mpr hall).symm⟩
        rw [hv] at heq
        cases heq
    · have hpick : t.pickEntry alloc key lo hi = .error .outOfBounds := by
        rw [pickEntry_of_gt hgt, entryLeaf_outside (not_lt.mp hlo), error_bind]
      have hsearch : t.search alloc key lo hi = .error .outOfBounds := by
        rw [LeafTable.search, if_pos hlt, hpick, error_bind]
      rw [hsearch]
      refine iff_of_false (fun heq => by cases heq) fun hs => ?_
      obtain ⟨p, hp, _⟩ := hs hlt
      rw [hpick] at hp
      cases hp

/-- In every state that inserts and updates lead to, a compute node searches like the memory node,
exactly when it cannot miss a synonym leaf or meet another copy. -/
theorem client_search_iff (hN : Even N) (hN0 : 0 < N) (h : Loaded fmt epsilon data r c)
    {ops : List (TableOp Key V)} (hops : ∀ op ∈ ops, op.Stores) {answers : List (Answer V)}
    (hrun : r.run fmt epsilon ops = .ok (answers, r')) (hm : r'.model key = .ok m)
    (hw : WindowNonneg fmt epsilon m N key) :
    c.search fmt epsilon r'.RM.leafAllocator key = r'.search fmt epsilon key ↔
      SeenAlike m.ltable r'.RM.leafAllocator key (m.window fmt epsilon N key).1
      (m.window fmt epsilon N key).2 := by
  obtain ⟨⟨slots, chains, hsound⟩, _⟩ := h.layout hN0
  obtain ⟨hshape, slots, chains, hsound⟩ := hsound.run_of_ok hN hN0 hops hrun
  have hm' := model_ok hm
  rw [h.search_eq hshape hsound hm' hw, RolexIndex.search_eq hm']
  generalize m.window fmt epsilon N key = w
  by_cases hlt : w.2 < m.ltable.size
  · rw [if_pos hlt]
    exact search_iff_seenAlike (hsound.sound _ m hm').toRepresents hlt
  · rw [if_neg hlt, LeafTable.search, if_neg hlt]
    exact iff_of_true rfl fun h => absurd h hlt

theorem loaded_of_train {data : List (Key × ℕ)} {r : RolexIndex (Fin (2 ^ 64)) ℕ 2}
    {c : LearnedCache (Fin (2 ^ 64))} (hr : emptyStored.train binary64 1 noEntries data = .ok r)
    (hc : LearnedCache.readRemoteIndex binary64 noEntries r.RM.modelAllocator = .ok c)
    (hfits : (decide (r.models.length < 2 ^ 21 - 1) &&
      r.models.all fun m => decide ((m.serialize binary64).length < 2 ^ 31)) = true) :
    Loaded binary64 1 data r c := by
  obtain ⟨hnum, hser⟩ := Bool.and_eq_true_iff.mp hfits
  exact ⟨fun _ => rfl, ⟨emptyStored, fun _ => 0, 2 ^ 26, noEntries, emptyStored_construct,
    LeafAllocator.prealloc_fresh _ _ _, rfl, rfl, hr, of_decide_eq_true hnum⟩,
    fun m hm => of_decide_eq_true (List.all_eq_true.mp hser m hm), noEntries, hc⟩

theorem gap_loaded {r : RolexIndex (Fin (2 ^ 64)) ℕ 2} {c : LearnedCache (Fin (2 ^ 64))}
    (hr : emptyStored.train binary64 1 noEntries gapData = .ok r)
    (hc : LearnedCache.readRemoteIndex binary64 noEntries r.RM.modelAllocator = .ok c) :
    Loaded binary64 1 gapData r c := by
  obtain ⟨r', hr', hp⟩ := exists_ok (p := fun r : RolexIndex (Fin (2 ^ 64)) ℕ 2 =>
      decide (r.models.length < 2 ^ 21 - 1) &&
        r.models.all fun m => decide ((m.serialize binary64).length < 2 ^ 31))
    (by decide +kernel : (emptyStored.train binary64 1 noEntries gapData).toOption.any _ = true)
  obtain rfl := Except.ok.inj (hr'.symm.trans hr)
  exact loaded_of_train hr hc hp

theorem client_search_iff_ten :
    ∃ r c answers r' m, emptyStored.train binary64 1 noEntries gapData = .ok r ∧
    LearnedCache.readRemoteIndex binary64 noEntries r.RM.modelAllocator = .ok c ∧
    r.run binary64 1 [.insert 12 120] = .ok (answers, r') ∧ r'.model 10 = .ok m ∧
    (c.search binary64 1 r'.RM.leafAllocator 10 = r'.search binary64 1 10 ↔
      SeenAlike m.ltable r'.RM.leafAllocator 10 (m.window binary64 1 2 10).1
      (m.window binary64 1 2 10).2) := by
  obtain ⟨r, hr, hp⟩ := exists_ok (p := fun r : RolexIndex (Fin (2 ^ 64)) ℕ 2 =>
      (LearnedCache.readRemoteIndex binary64 noEntries r.RM.modelAllocator).toOption.any
        (fun _ => true) &&
      (r.run binary64 1 [.insert 12 120]).toOption.any fun res =>
      (res.2.model 10).toOption.any fun m =>
        decide (0 ≤ toInt32 ((m.model.predict binary64 1 10 m.capacity).lo / 2)) &&
        decide (0 ≤ toInt32 ((m.model.predict binary64 1 10 m.capacity).hi / 2)))
    (by decide +kernel : (emptyStored.train binary64 1 noEntries gapData).toOption.any _ = true)
  obtain ⟨hc, hrun⟩ := Bool.and_eq_true_iff.mp hp
  obtain ⟨c, hc, _⟩ := exists_ok hc
  obtain ⟨⟨answers, r'⟩, hrun, hm⟩ := exists_ok hrun
  obtain ⟨m, hm, hwin⟩ := exists_ok hm
  obtain ⟨hlo, hle⟩ := Bool.and_eq_true_iff.mp hwin
  exact ⟨r, c, answers, r', m, hr, hc, hrun, hm,
    client_search_iff (by decide) (by decide) (gap_loaded hr hc)
    (fun op hop => by rw [List.mem_singleton.mp hop]; exact trivial) hrun hm ⟨of_decide_eq_true hlo,
    of_decide_eq_true hle⟩⟩

/-- The insert of 12 splits the leaf of 10 and 11, and 11 goes to a synonym leaf. -/
theorem client_search_misses_synonym :
    ∃ (r r' : RolexIndex (Fin (2 ^ 64)) ℕ 2) (c : LearnedCache (Fin (2 ^ 64)))
    (answers : List (Answer ℕ)) (m : SubModel (Fin (2 ^ 64))), Loaded binary64 1 gapData r c ∧
    r.run binary64 1 [.insert 12 120] = .ok (answers, r') ∧ r'.model 11 = .ok m ∧
    WindowNonneg binary64 1 m 2 11 ∧ c.search binary64 1 r'.RM.leafAllocator 11 = .ok none ∧
    r'.search binary64 1 11 = .ok (some 110) := by
  obtain ⟨r, hr, hp⟩ := exists_ok (p := fun r : RolexIndex (Fin (2 ^ 64)) ℕ 2 =>
      (LearnedCache.readRemoteIndex binary64 noEntries r.RM.modelAllocator).toOption.any fun c =>
      (r.run binary64 1 [.insert 12 120]).toOption.any fun res =>
        (res.2.model 11).toOption.any fun m =>
        (decide (0 ≤ toInt32 ((m.model.predict binary64 1 11 m.capacity).lo / 2)) &&
        decide (0 ≤ toInt32 ((m.model.predict binary64 1 11 m.capacity).hi / 2))) &&
        ((c.search binary64 1 res.2.RM.leafAllocator 11).toOption.any
        (fun v => decide (v = none)) &&
        (res.2.search binary64 1 11).toOption.any fun v => decide (v = some 110)))
    (by decide +kernel : (emptyStored.train binary64 1 noEntries gapData).toOption.any _ = true)
  obtain ⟨c, hc, hrun⟩ := exists_ok hp
  obtain ⟨⟨answers, r'⟩, hrun, hm⟩ := exists_ok hrun
  obtain ⟨m, hm, hall⟩ := exists_ok hm
  obtain ⟨hwin, hsearch⟩ := Bool.and_eq_true_iff.mp hall
  obtain ⟨hlo, hle⟩ := Bool.and_eq_true_iff.mp hwin
  obtain ⟨hclient, hmemory⟩ := Bool.and_eq_true_iff.mp hsearch
  obtain ⟨v, hclient, hv⟩ := exists_ok hclient
  obtain ⟨w, hmemory, hw⟩ := exists_ok hmemory
  obtain rfl := of_decide_eq_true hv
  obtain rfl := of_decide_eq_true hw
  exact ⟨r, r', c, answers, m, gap_loaded hr hc, hrun, hm,
    ⟨of_decide_eq_true hlo, of_decide_eq_true hle⟩, hclient, hmemory⟩

end Rolex
