import Rolex.ModelRegion
import Rolex.WindowSafety

/-! An index that is rebuilt from the model region, on the memory node or on a compute node, is the
trained one but for the lock objects of its leaf tables. -/

namespace Rolex
open Bytes AscendingMap

variable {F V : Type} {N : ℕ} {fmt : DoubleFormat F} {epsilon : ℕ}
  {raw : ℕ → Fin kSynonymMax → TableEntry}

theorem readModels_ok {a : ModelAllocator} {keys : List Key} {offs : List ℕ}
    {models : List (SubModel F)} (h : Region fmt a keys offs models) (hst : fmt.Stored)
    (hcap : ∀ m ∈ models, m.capacity < 2 ^ 64)
    (hser : ∀ m ∈ models, (m.serialize fmt).length < 2 ^ 31) {n : ℕ} :
    ∀ {i : ℕ}, i + n = models.length →
      LearnedCache.readModels fmt raw a (offs.drop i) i =
      .ok ((models.drop i).map SubModel.unlocked) := by
  induction n with
  | zero =>
    intro i hi
    have hoffs := h.offsLength
    rw [List.drop_of_length_le (by omega), List.drop_of_length_le (by omega)]
    rfl
  | succ n ih =>
    intro i hi
    have hki : i < keys.length := by rw [h.keysLength]; omega
    have hoi : i < offs.length := by rw [h.offsLength]; omega
    have hmi : i < models.length := by omega
    obtain ⟨hsize, hint, hmodel, hdes⟩ := h.model_ok hst hcap hser (List.getElem?_eq_getElem hki)
      (List.getElem?_eq_getElem hoi) (List.getElem?_eq_getElem hmi) (raw i)
    have hlen := hser _ (List.getElem_mem hmi)
    have hmod : (models[i].serialize fmt).length % 2 ^ 32 = (models[i].serialize fmt).length :=
      Nat.mod_eq_of_lt (by omega)
    have hfour : LearnedCache.readSyn a offs[i] 4 =
      .ok (toBytes 4 (models[i].serialize fmt).length) := hsize
    rw [List.drop_eq_getElem_cons hoi, List.drop_eq_getElem_cons hmi, LearnedCache.readModels,
      hfour, ok_bind]
    dsimp only
    rw [hint, if_neg (by omega), Int.toNat_natCast, LearnedCache.readSyn, hmod, hmodel, ok_bind,
      hdes, ok_bind, ih (by omega), ok_bind, List.map_cons]

def RolexIndex.rebuilt (r : RolexIndex F V N) : RolexIndex F V N :=
  { r with models := r.models.map SubModel.unlocked }

theorem Region.read_back {r : RolexIndex F V N} {offs : List ℕ}
    (h : Region fmt r.RM.modelAllocator r.modelKeys offs r.models) (hst : fmt.Stored)
    (hcount : r.RM.modelAllocator.memPool.read 0 8 = toBytes 8 r.models.length)
    (hnum : r.models.length < 2 ^ 21 - 1) (hcap : ∀ m ∈ r.models, m.capacity < 2 ^ 64)
    (hser : ∀ m ∈ r.models, (m.serialize fmt).length < 2 ^ 31)
    (raw₁ raw₂ : ℕ → Fin kSynonymMax → TableEntry) :
    ({ r with modelKeys := [], models := [] } : RolexIndex F V N).deserialize fmt raw₁ =
    .ok r.rebuilt ∧
    LearnedCache.readRemoteIndex fmt raw₂ r.RM.modelAllocator =
      .ok ⟨r.modelKeys, offs, r.models.map SubModel.unlocked⟩ := by
  have hcur := h.cur
  have hcurLe := h.curLe
  have hkeys := h.keysLength
  have hoffs := h.offsLength
  have hkU : kUpperModel = 2 ^ 25 := by norm_num
  have htotal : r.RM.modelAllocator.get 0 8 = .ok (toBytes 8 r.models.length) := by
    rw [get_ok (by omega), hcount]
  have hval : ofBytes (toBytes 8 r.models.length) = r.models.length := ofBytes_toBytes (by omega)
  have hslots : ∀ i, i < r.models.length → ∃ key off m, r.modelKeys[i]? = some key ∧
    offs[i]? = some off ∧
      r.models[i]? = some m := fun i hi =>
    ⟨_, _, _, List.getElem?_eq_getElem (by omega), List.getElem?_eq_getElem (by omega),
      List.getElem?_eq_getElem hi⟩
  constructor
  · have hloop : ({ r with modelKeys := [], models := [] } : RolexIndex F V N).deserializeModels fmt
        raw₁ _ 0 = _ :=
      deserializeModels_ok hst hnum hcap hser h (Nat.zero_add _)
    rw [RolexIndex.deserialize]
    dsimp only
    rw [htotal, ok_bind, hval, hloop]
    rfl
  · have hkeyWords : LearnedCache.words
      (r.RM.modelAllocator.memPool.read 8 (8 * r.models.length)) r.models.length 0 =
        .ok ((r.modelKeys.map Fin.val).drop 0) := by
      refine words_ok (fun i w hw => ?_) (by rw [List.length_map]; omega)
        (by rw [List.length_map]; omega)
      obtain ⟨key, hkey, rfl⟩ := Option.map_eq_some_iff.mp (List.getElem?_map ▸ hw)
      have hi := (List.getElem?_eq_some_iff.mp hkey).1
      obtain ⟨_, off, m, hk, ho, hm⟩ := hslots i (by omega)
      exact ⟨(h.stored i key off m hkey ho hm).keySlot, key.isLt⟩
    have hoffWords : LearnedCache.words
      (r.RM.modelAllocator.memPool.read (kUpperModel / 2) (8 * r.models.length))
        r.models.length 0 = .ok (offs.drop 0) := by
      refine words_ok (fun i off ho => ?_) (by omega) (by omega)
      have hi := (List.getElem?_eq_some_iff.mp ho).1
      obtain ⟨key, _, m, hk, _, hm⟩ := hslots i (by omega)
      exact ⟨(h.stored i key off m hk ho hm).offSlot, h.off_lt (by omega) hk ho hm⟩
    have hmodels : LearnedCache.readModels fmt raw₂ _ _ 0 = _ :=
      readModels_ok h hst hcap hser (Nat.zero_add _)
    have hmod : 8 * r.models.length % 2 ^ 32 = 8 * r.models.length := Nat.mod_eq_of_lt (by omega)
    rw [List.drop_zero] at hkeyWords hoffWords
    rw [List.drop_zero, List.drop_zero] at hmodels
    have height : LearnedCache.readSyn r.RM.modelAllocator 0 8 = .ok (toBytes 8 r.models.length) :=
      htotal
    rw [LearnedCache.readRemoteIndex, height, ok_bind]
    dsimp only
    rw [hval, LearnedCache.readSyn, LearnedCache.readSyn, hmod, get_ok (by omega), ok_bind,
      get_ok (by omega), ok_bind, hkeyWords, ok_bind, hoffWords, ok_bind, hmodels, ok_bind]
    have hid : (r.modelKeys.map Fin.val).map (Fin.ofNat (2 ^ 64)) = r.modelKeys := by
      rw [List.map_map]
      exact List.map_id'' (fun k => Fin.ofNat_val_eq_self k) _
    rw [hid]

/-! ### The round trip -/

theorem region_of_train {mem : Memory} {t : ℕ} {r r' : RolexIndex F V N}
    (halloc : ModelAllocator.construct mem t = .ok r.RM.modelAllocator) (hmodels : r.models = [])
    (hkeys : r.modelKeys = []) {data : List (Key × V)} (hok : r.train fmt epsilon raw data = .ok r')
    (hnum : r'.models.length < r.RM.modelAllocator.maxUpperNum)
    (hser : ∀ m ∈ r'.models, (m.serialize fmt).length < 2 ^ 31) :
    ∃ offs, Region fmt r'.RM.modelAllocator r'.modelKeys offs r'.models ∧
      r'.RM.modelAllocator.memPool.read 0 8 = toBytes 8 r'.models.length ∧
      r'.models.length < 2 ^ 21 - 1 ∧
      ∀ m ∈ r'.models, m.capacity < 2 ^ 31 := by
  obtain ⟨hregion, hcount⟩ : Region fmt _ [] [] [] ∧ _ := Region.of_construct halloc
  rw [hregion.max] at hnum
  by_cases hne : data = []
  · subst hne
    obtain rfl := RolexIndex.eq_of_train_nil hok
    rw [hmodels, hkeys]
    exact ⟨[], hregion, hcount, by norm_num, fun _ hm => by cases hm⟩
  obtain ⟨hlen, segs, r₁, alloc, happ, rfl, hput, rfl⟩ := RolexIndex.train_appended hne hok
  obtain ⟨offs, hstored⟩ := happ.region hregion hmodels hkeys hnum hser
  refine ⟨offs, hstored.count hput, ?_, hnum, fun m hm => ?_⟩
  · obtain rfl := put_ok hput
    have hself := Memory.read_write_self r₁.RM.modelAllocator.memPool 0 (toBytes 8 r₁.models.length)
    rwa [length_toBytes] at hself
  · obtain ⟨hlen₁, hbuilt⟩ := happ.built hmodels
    obtain ⟨i, hi, rfl⟩ := List.mem_iff_getElem.mp hm
    have hseg : segs[i]? = some segs[i] := List.getElem?_eq_getElem (by rw [← hlen₁]; exact hi)
    obtain ⟨_, opt, _, _, _, _, hconstruct⟩ := hbuilt i _ _ (List.getElem?_eq_getElem hi) hseg
    have hle := (List.sublist_flatten_of_mem (List.mem_of_getElem? hseg)).length_le
    exact (SubModel.construct_model hconstruct).2.trans_lt (hle.trans_lt hlen)

/-- Both readers find every model key and every submodel that the training left. -/
theorem region_round_trip (hst : fmt.Stored) {mem : Memory} {t : ℕ} {r r' : RolexIndex F V N}
    (halloc : ModelAllocator.construct mem t = .ok r.RM.modelAllocator) (hmodels : r.models = [])
    (hkeys : r.modelKeys = []) {data : List (Key × V)} (hok : r.train fmt epsilon raw data = .ok r')
    (hnum : r'.models.length < r.RM.modelAllocator.maxUpperNum)
    (hser : ∀ m ∈ r'.models, (m.serialize fmt).length < 2 ^ 31)
    (raw₁ raw₂ : ℕ → Fin kSynonymMax → TableEntry) :
    ({ r' with modelKeys := [], models := [] } : RolexIndex F V N).deserialize fmt raw₁ =
    .ok r'.rebuilt ∧
    ∃ offs, LearnedCache.readRemoteIndex fmt raw₂ r'.RM.modelAllocator =
      .ok ⟨r'.modelKeys, offs, r'.models.map SubModel.unlocked⟩ := by
  obtain ⟨offs, hregion, hcount, hnum', hcap⟩ := region_of_train halloc hmodels hkeys hok hnum hser
  obtain ⟨hmemory, hcompute⟩ :=
    hregion.read_back hst hcount hnum' (fun m hm => (hcap m hm).trans (by norm_num)) hser
    raw₁ raw₂
  exact ⟨hmemory, offs, hcompute⟩

/-- `a / b` to the nearest multiple of a power of two that leaves `p` significant bits, ties to
even, as exponent and significand; numbers below `2 ^ emin` are subnormal. -/
def nearest (p : ℕ) (emin : ℤ) (a b : ℕ) : ℤ × ℕ :=
  let l : ℤ := Nat.log2 a - Nat.log2 b
  let e := max (if a * 2 ^ (-l).toNat < b * 2 ^ l.toNat then l - 1 else l) emin
  let s := p - 1 - e
  let num := a * 2 ^ s.toNat
  let den := b * 2 ^ (-s).toNat
  let m := num / den
  (e, if 2 * (num % den) < den ∨ 2 * (num % den) = den ∧ m % 2 = 0 then m else m + 1)

/-- The finite doubles of x86-64, and its `long double` of 64 significant bits. -/
def binary64 : DoubleFormat (Fin (2 ^ 64)) where
  value x :=
    let m := (x.val % 2 ^ 52 : ℕ)
    let e := x.val / 2 ^ 52 % 2 ^ 11
    (if x.val / 2 ^ 63 = 1 then -1 else 1) *
      (if e = 0 then (m : ℚ) / 2 ^ 1074 else (2 ^ 52 + m : ℚ) * 2 ^ e / 2 ^ 1075)
  round q :=
    let r := nearest 53 (-1022) q.num.natAbs q.den
    Fin.ofNat _ (if q = 0 then
      0 else (if q < 0 then 2 ^ 63 else 0) + (2 ^ 52 * (r.1 + 1022).toNat + r.2))
  extended q :=
    let r := nearest 64 (-16382) q.num.natAbs q.den
    if q = 0 then 0 else
      (if q < 0 then -1 else 1) * (r.2 * 2 ^ (r.1 - 63).toNat : ℚ) / 2 ^ (63 - r.1).toNat
  bits x := x
  ofBits x := x

example : binary64.value (binary64.round (-5 / 2)) = -5 / 2 ∧
    binary64.value (binary64.round (1 / 3)) = 6004799503160661 / 2 ^ 54 ∧
    binary64.extended (1 / 3) = 12297829382473034411 / 2 ^ 65 := by decide +kernel

def emptyStored : RolexIndex (Fin (2 ^ 64)) ℕ 2 :=
  ⟨⟨LeafAllocator.prealloc (fun _ => zeroLeaf 2) 200 two_hundred_le,
    ⟨Memory.write (fun _ => 0) 0 (toBytes 8 0), 2 ^ 26, kUpperModel, 0, 2 ^ 21 - 1⟩⟩, [], []⟩

theorem emptyStored_construct :
    ModelAllocator.construct (fun _ => 0) (2 ^ 26) = .ok emptyStored.RM.modelAllocator := by
  rw [ModelAllocator.construct, if_pos (by norm_num)]
  rfl

theorem region_round_trip_four : ∃ r', emptyStored.train binary64 1 noEntries gapData = .ok r' ∧
    r'.models.length = 2 ∧
    ({ r' with modelKeys := [], models := [] } : RolexIndex _ ℕ 2).deserialize binary64 noEntries =
    .ok r'.rebuilt ∧
    ∃ offs, LearnedCache.readRemoteIndex binary64 noEntries r'.RM.modelAllocator =
      .ok ⟨r'.modelKeys, offs, r'.models.map SubModel.unlocked⟩ := by
  obtain ⟨r', hr, hp⟩ :=
    exists_ok (p := fun r : RolexIndex (Fin (2 ^ 64)) ℕ 2 => decide (r.models.length = 2) &&
      r.models.all fun m => decide ((m.serialize binary64).length < 2 ^ 31))
    (by decide +kernel : (emptyStored.train binary64 1 noEntries gapData).toOption.any _ = true)
  obtain ⟨htwo, hser⟩ := Bool.and_eq_true_iff.mp hp
  have htwo := of_decide_eq_true htwo
  obtain ⟨hmemory, hcompute⟩ := region_round_trip (fun _ => rfl) emptyStored_construct rfl rfl hr
    (by rw [htwo]; decide)
    (fun m hm => of_decide_eq_true (List.all_eq_true.mp hser m hm)) noEntries noEntries
  exact ⟨r', hr, htwo, hmemory, hcompute⟩

end Rolex
