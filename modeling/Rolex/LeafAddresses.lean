import Rolex.WindowSafety

/-! The leaf addresses that a compute node takes from its copy of the table: the same computation
as on the memory node, with other integer types and without the clamping at 0. -/

namespace Rolex
open AscendingMap

structure LeafAddr where
  off : ℕ
  addr : TableEntry
  deriving DecidableEq

namespace LeafTable

def leafAddrs (t : LeafTable) : ℕ → ℕ → Except Fault (List LeafAddr)
  | 0, _ => .ok []
  | count + 1, i => do
    let te ← t.entry i
    let rest ← t.leafAddrs count (i + 1)
    .ok (⟨i, te⟩ :: rest)

/-- The arguments are `usize`. -/
def getLeafAddr (t : LeafTable) (lo hi : ℕ) : Except Fault (List LeafAddr) :=
  let lo := lo % 2 ^ 32
  let hi := hi % 2 ^ 32
  if hi < t.table.length then t.leafAddrs (hi + 1 - lo) lo else .error .windowOutsideTable

def windowEntries (t : LeafTable) (l h : ℕ) : List LeafAddr :=
  ((t.table.zipIdx.drop l).take (h + 1 - l)).map fun q => ⟨q.2, q.1⟩

theorem leafAddrs_ok (t : LeafTable) {count : ℕ} : ∀ {i : ℕ}, i + count ≤ t.size →
    t.leafAddrs count i = .ok (((t.table.zipIdx.drop i).take count).map fun q => ⟨q.2, q.1⟩) := by
  induction count with
  | zero =>
    intro i _
    rw [List.take_zero]
    rfl
  | succ count ih =>
    intro i hi
    have hlt : i < t.size := by omega
    have hz : i < t.table.zipIdx.length := by rw [List.length_zipIdx]; exact hlt
    rw [leafAddrs, t.entry_eq hlt, ok_bind, ih (by omega), ok_bind, List.drop_eq_getElem_cons hz,
      List.take_succ_cons, List.map_cons, List.getElem_zipIdx, Nat.zero_add]

theorem getLeafAddr_ok (t : LeafTable) {lo hi : ℕ} (hlo : lo < 2 ^ 32) (hhi : hi < t.size)
    (hle : lo ≤ hi) (hsize : t.size < 2 ^ 32) :
    t.getLeafAddr lo hi = .ok (t.windowEntries lo hi) := by
  rw [getLeafAddr, Nat.mod_eq_of_lt hlo, Nat.mod_eq_of_lt (hhi.trans hsize)]
  exact (if_pos hhi).trans (t.leafAddrs_ok (by omega))

end LeafTable

variable {F V : Type} {N : ℕ} {fmt : DoubleFormat F} {epsilon : ℕ}
  {raw : ℕ → Fin kSynonymMax → TableEntry}

def SubModel.getLeafAddr (fmt : DoubleFormat F) (epsilon : ℕ) (m : SubModel F) (N : ℕ) (key : Key) :
    Except Fault (List LeafAddr) :=
  let p := m.model.predict fmt epsilon key m.capacity
  m.ltable.getLeafAddr (p.lo / N) (p.hi / N)

theorem toInt32_of_mod {n : ℕ} (h : n % 2 ^ 32 < 2 ^ 31) : toInt32 n = (n % 2 ^ 32 : ℕ) := by
  rw [toInt32]
  omega

/-- Below the range the two ends wrap to one number. -/
theorem predict_of_le (hfmt : fmt.Exact) {model : LinearRegressionModel F} {key : Key}
    (h : model.exactPos fmt key + epsilon + 2 ≤ -1) (size : ℕ) :
    (model.predict fmt epsilon key size).lo = toSizeT (model.exactPos fmt key + epsilon + 2) ∧
      (model.predict fmt epsilon key size).hi = toSizeT (model.exactPos fmt key + epsilon + 2) := by
  have h0 : (0 : ℚ) ≤ size := Nat.cast_nonneg _
  have he : (0 : ℚ) ≤ epsilon := Nat.cast_nonneg _
  have hhi : hiEnd (model.exactPos fmt key) epsilon size = model.exactPos fmt key + epsilon + 2 :=
    if_neg (not_le.mpr (by linarith))
  have hlo : loEnd (model.exactPos fmt key) epsilon size =
      model.exactPos fmt key + epsilon + 2 := by
    rw [loEnd, hhi, if_pos (by linarith), min_eq_right (by linarith)]
  rw [predict_eq hfmt, hlo, hhi]
  exact ⟨rfl, rfl⟩

/-- The compute node reads the leaves that the memory node searches, exactly when the position is
above `-(Epsilon + 3)`, or is below and its wrapped leaf number is in the table. -/
theorem getLeafAddr_iff (hfmt : fmt.Exact) (hE : 1 ≤ epsilon) (hN : 0 < N) {r r' : RolexIndex F V N}
    (hfresh : r.RM.leafAllocator.Fresh) (hmodels : r.models = []) (hkeys : r.modelKeys = [])
    {data : List (Key × V)} (hasc : Ascending data) (hok : r.train fmt epsilon raw data = .ok r')
    {key : Key} {m : SubModel F} (hm : r'.model key = .ok m) :
    m.getLeafAddr fmt epsilon N key = .ok (m.ltable.windowEntries (m.window fmt epsilon N key).1
        (m.window fmt epsilon N key).2) ↔
      -1 < m.model.exactPos fmt key + epsilon + 2 ∨
        (truncate (m.model.exactPos fmt key + epsilon + 2) % 2 ^ 64).toNat / N % 2 ^ 32 <
        m.ltable.size := by
  have ht := trainedModel_of_train hfmt hE hN hfresh hmodels hkeys hasc hok (model_ok hm)
  have hsize := ht.size_lt
  rcases lt_or_ge (-1) (m.model.exactPos fmt key + epsilon + 2) with hup | hup
  · have hpos := (neg_one_lt_hiEnd m.capacity).mpr hup
    obtain ⟨hle, hhi⟩ := ht.hi_le hfmt hpos
    have hlo := ht.lt_size (hle.trans hhi)
    rw [ht.window_of_gt hfmt hpos]
    refine iff_of_true ?_ (Or.inl hup)
    exact m.ltable.getLeafAddr_ok (by omega) (ht.lt_size hhi) (Nat.div_le_div_right hle) (by omega)
  · obtain ⟨hlo, hhi⟩ := predict_of_le hfmt hup m.capacity
    set w := toSizeT (m.model.exactPos fmt key + epsilon + 2) with hw
    have hwrap : (truncate (m.model.exactPos fmt key + epsilon + 2) % 2 ^ 64).toNat = w := rfl
    rw [hwrap, or_iff_right (not_lt.mpr hup), SubModel.getLeafAddr, hlo, hhi, LeafTable.getLeafAddr]
    by_cases hin : w / N % 2 ^ 32 < m.ltable.size
    · have hint := toInt32_of_mod (hin.trans hsize)
      have hwin : m.window fmt epsilon N key = (w / N % 2 ^ 32, w / N % 2 ^ 32) := by
        rw [SubModel.window, hlo, hhi, hint]
        simp only [Nat.cast_nonneg, sup_of_le_left, Int.toNat_natCast]
      rw [hwin]
      exact iff_of_true ((if_pos hin).trans (m.ltable.leafAddrs_ok (by omega))) hin
    · refine iff_of_false (fun heq => ?_) hin
      have herr : (if w / N % 2 ^ 32 < m.ltable.table.length then
          m.ltable.leafAddrs (w / N % 2 ^ 32 + 1 - w / N % 2 ^ 32) (w / N % 2 ^ 32)
        else .error .windowOutsideTable) = .error .windowOutsideTable := if_neg hin
      rw [herr] at heq
      cases heq

theorem getLeafAddr_iff_eleven :
    ∃ r m, emptyIndex.train exactFormat 1 noEntries gapData = .ok r ∧ r.model 11 = .ok m ∧
    (m.getLeafAddr exactFormat 1 2 11 = .ok (m.ltable.windowEntries (m.window exactFormat 1 2 11).1
        (m.window exactFormat 1 2 11).2) ↔
      -1 < m.model.exactPos exactFormat 11 + (1 : ℕ) + 2 ∨
        (truncate (m.model.exactPos exactFormat 11 + (1 : ℕ) + 2) % 2 ^ 64).toNat / 2 % 2 ^ 32 <
        m.ltable.size) := by
  obtain ⟨r, m, hr, _, hm, _⟩ := gap_trained
  exact ⟨r, m, hr, hm,
    getLeafAddr_iff exactFormat_exact le_rfl (by norm_num) emptyIndex_fresh rfl rfl
    (by decide) hr hm⟩

/-- The memory node searches leaf 0, the compute node stops at its `ASSERT`. -/
theorem gap_key_no_leaf_addr :
    ∃ r m, emptyIndex.train exactFormat 1 noEntries gapData = .ok r ∧ r.model 2 = .ok m ∧
    m.window exactFormat 1 2 2 = (0, 0) ∧
    m.getLeafAddr exactFormat 1 2 2 = .error .windowOutsideTable := by
  obtain ⟨r, m, hr, hm, _, hmodel, hcap, hsize⟩ := gap_trained
  have hhi : (LinearRegressionModel.predict exactFormat 1 ⟨1, -10⟩ 2 2).hi / 2 % 2 ^ 32 =
      4294967293 := by
    decide +kernel
  refine ⟨r, m, hr, hm, ?_, ?_⟩
  · rw [SubModel.window, hmodel, hcap]
    decide +kernel
  · rw [SubModel.getLeafAddr, hmodel, hcap, LeafTable.getLeafAddr, hhi]
    refine if_neg ?_
    change ¬4294967293 < m.ltable.size
    rw [hsize]
    norm_num

end Rolex
