import Rolex.BinarySearch
import Rolex.TrainPartition
import Rolex.RebuiltIndex

/-!
The lookup of a submodel, as the operations of the index and of its copies on compute nodes do it.
The binary search behind it is undefined for a single model key, and nothing checks their number.
-/

namespace Rolex
open AscendingMap Bytes

variable {F V : Type} {N : ℕ} {fmt : DoubleFormat F} {epsilon : ℕ}
  {raw : ℕ → Fin kSynonymMax → TableEntry}

/-- `model_for_key` with its search. The size of the vector becomes an `int`, the result a
`usize`. -/
def Branchless.modelForKey (modelKeys : List Key) (modelNum : ℕ) (key : Key) : Except Fault ℕ :=
  if modelKeys = [] then .error .outOfBounds
  else do
    let idx ← binarySearchBranchless modelKeys (toInt32 modelKeys.length) key
    let idx := (idx % 2 ^ 64).toNat
    .ok ((if idx < modelNum then idx else modelNum - 1) % 2 ^ 32)

def Responsible (modelKeys : List Key) (modelNum : ℕ) (key : Key) (i : ℕ) : Prop :=
  i < modelNum ∧ (∀ j k, j < i → modelKeys[j]? = some k → k < key) ∧
    ((∃ k, modelKeys[i]? = some k ∧ key ≤ k) ∨ i + 1 = modelNum ∧ ∀ k ∈ modelKeys, k < key)

section Lookup

variable {keys : List Key} {key : Key}

theorem responsible_modelForKey (hne : keys ≠ []) :
    Responsible keys keys.length key (modelForKey keys keys.length key) := by
  have hpos : 0 < keys.length := List.length_pos_iff.mpr hne
  have hbelow : ∀ j k, j < firstNotBelow keys key → keys[j]? = some k → k < key := by
    intro j k hj hk
    obtain ⟨hjl, rfl⟩ := List.getElem?_eq_some_iff.mp hk
    exact not_le.mp (of_decide_eq_false (List.not_of_lt_findIdx hj))
  rw [modelForKey]
  split
  · rename_i hlt
    exact ⟨hlt, hbelow, Or.inl ⟨_, List.getElem?_eq_getElem hlt,
      of_decide_eq_true (List.findIdx_getElem (w := hlt))⟩⟩
  · rename_i hge
    refine ⟨by omega, fun j k hj hk => hbelow j k (by omega) hk, Or.inr ⟨by omega, fun k hk => ?_⟩⟩
    obtain ⟨j, hj⟩ := List.mem_iff_getElem?.mp hk
    exact hbelow j k ((List.getElem?_eq_some_iff.mp hj).1.trans_le (not_lt.mp hge)) hj

theorem Branchless.modelForKey_eq (hasc : keys.Pairwise (· < ·)) (htwo : 2 ≤ keys.length)
    (hlt : keys.length < 2 ^ 31) :
    Branchless.modelForKey keys keys.length key = .ok (Rolex.modelForKey keys keys.length key) := by
  have hle : firstNotBelow keys key ≤ keys.length := List.findIdx_le_length
  have hmod : (((firstNotBelow keys key : ℕ) : ℤ) % 2 ^ 64).toNat = firstNotBelow keys key := by
    omega
  have hfirst : lowerBound keys key = firstNotBelow keys key := rfl
  rw [Branchless.modelForKey, if_neg (List.length_pos_iff.mp (by omega)), toInt32_of_lt hlt,
    binarySearchBranchless_eq hasc htwo hlt, ok_bind, hfirst]
  dsimp only
  rw [hmod, Rolex.modelForKey]
  congr 1
  split <;> omega

/-- One model: the search is undefined. -/
theorem Branchless.modelForKey_one (hone : keys.length = 1) :
    Branchless.modelForKey keys keys.length key = .error .clzOfZero := by
  rw [Branchless.modelForKey, if_neg (List.length_pos_iff.mp (by omega)), hone]
  rfl

theorem modelForKey_returns_iff (hasc : keys.Pairwise (· < ·)) (hne : keys ≠ [])
    (hlt : keys.length < 2 ^ 31) (key : Key) :
    (∃ i, Branchless.modelForKey keys keys.length key = .ok i ∧
      Responsible keys keys.length key i) ↔
      2 ≤ keys.length := by
  have hpos : 0 < keys.length := List.length_pos_iff.mpr hne
  constructor
  · rintro ⟨i, hok, _⟩
    by_contra hone
    rw [Branchless.modelForKey_one (by omega)] at hok
    cases hok
  · exact fun htwo => ⟨_, Branchless.modelForKey_eq hasc htwo hlt, responsible_modelForKey hne⟩

end Lookup

/-! ### How many models a training leaves -/

namespace RolexIndex

def fitsSegment : List (Key × V) → PLR → ℕ → Bool
  | [], _, _ => true
  | e :: rest, opt, pos =>
    match opt.addPoint e.1 (pos + 1) with
    | .ok (true, opt) => fitsSegment rest opt (pos + 1)
    | _ => false

def oneSegment (epsilon : ℕ) (data : List (Key × V)) : Bool :=
  match data with
  | [] => false
  | e :: rest =>
    match (PLR.construct (epsilon - 1)).addPoint e.1 0 with
    | .ok (_, opt) => fitsSegment rest opt 0
    | _ => false

theorem appendSegment_length {r r' : RolexIndex F V N} {opt : PLR} {seg : List (Key × V)}
    (hok : r.appendSegment fmt raw opt seg = .ok r') : r'.models.length = r.models.length + 1 := by
  obtain ⟨m, _, _, hmodels, _⟩ := appendSegment_ok hok
  rw [hmodels, List.length_append, List.length_singleton]

theorem trainLoop_lt {rest : List (Key × V)} :
    ∀ {cur : List (Key × V)} {p : Key} {opt : PLR} {pos : ℕ} {r r' : RolexIndex F V N},
      InSegment epsilon cur p opt pos →
      trainLoop fmt epsilon raw rest p opt (cur ++ rest) pos r = .ok r' →
      r.models.length < r'.models.length := by
  induction rest with
  | nil =>
    intro cur p opt pos r r' h hok
    rw [h.trainLoop_nil] at hok
    have := appendSegment_length hok
    omega
  | cons e rest ih =>
    intro cur p opt pos r r' h hok
    rcases h.step e rest r with ⟨_, f, _, hloop⟩ | ⟨_, opt', _, h', hloop⟩ |
      ⟨_, opt', opt₀, _, h₀, hloop⟩ <;> rw [hloop] at hok
    · cases hok
    · exact ih h' hok
    · obtain ⟨r₁, happ, hok⟩ := bind_eq_ok hok
      have := appendSegment_length happ
      exact (by omega : r.models.length < r₁.models.length).trans (ih h₀ hok)

theorem trainLoop_one_iff {rest : List (Key × V)} :
    ∀ {cur : List (Key × V)} {p : Key} {opt : PLR} {pos : ℕ} {r r' : RolexIndex F V N},
      InSegment epsilon cur p opt pos →
      trainLoop fmt epsilon raw rest p opt (cur ++ rest) pos r = .ok r' →
      (r'.models.length = r.models.length + 1 ↔ fitsSegment rest opt pos = true) := by
  induction rest with
  | nil =>
    intro cur p opt pos r r' h hok
    rw [h.trainLoop_nil] at hok
    exact ⟨fun _ => rfl, fun _ => appendSegment_length hok⟩
  | cons e rest ih =>
    intro cur p opt pos r r' h hok
    rcases h.step e rest r with ⟨_, f, _, hloop⟩ | ⟨_, opt', hadd, h', hloop⟩ |
      ⟨_, opt', opt₀, hadd, h₀, hloop⟩ <;> rw [hloop] at hok
    · cases hok
    · rw [fitsSegment, hadd]
      exact ih h' hok
    · rw [fitsSegment, hadd]
      obtain ⟨r₁, happ, hok⟩ := bind_eq_ok hok
      have hfirst := appendSegment_length happ
      have hrest := trainLoop_lt h₀ hok
      exact ⟨fun hone => by omega, fun hfalse => Bool.noConfusion hfalse⟩

/-- One model for all keys, or two and more. -/
theorem train_two_iff {r r' : RolexIndex F V N} (hmodels : r.models = []) {data : List (Key × V)}
    (hne : data ≠ []) (hok : r.train fmt epsilon raw data = .ok r') :
    2 ≤ r'.models.length ↔ oneSegment epsilon data = false := by
  obtain ⟨e, rest, rfl⟩ := List.exists_cons_of_ne_nil hne
  obtain ⟨_, opt₀, r₁, alloc, hfirst, h₀, hloop, _, rfl⟩ := train_eq_ok hok
  have hlt := trainLoop_lt h₀ hloop
  have hone := trainLoop_one_iff h₀ hloop
  rw [hmodels, List.length_nil] at hlt hone
  rw [oneSegment, hfirst, ← Bool.not_eq_true, ← hone]
  dsimp only
  omega

end RolexIndex

/-! ### The keys of the region -/

theorem Appended.modelKeys {r r' : RolexIndex F V N} {segs : List (List (Key × V))}
    (h : Appended fmt epsilon raw r segs r') : r'.modelKeys = r.modelKeys ++ segs.map lastKey ∧
      r'.models.length = r.models.length + segs.length ∧ ∀ seg ∈ segs, seg ≠ [] := by
  induction h with
  | none => simp
  | append h hne _ hok ih =>
    obtain ⟨hkeys, hlen, hall⟩ := ih
    obtain ⟨m, _, _, hmodels', hkeys'⟩ := appendSegment_ok hok
    refine ⟨?_, ?_, fun seg hseg => ?_⟩
    · rw [hkeys', hkeys, List.map_append, List.append_assoc]
      rfl
    · rw [hmodels', List.length_append, List.length_append, hlen]
      rfl
    · rcases List.mem_append.mp hseg with hseg | hseg
      · exact hall seg hseg
      · exact List.mem_singleton.mp hseg ▸ hne

/-- The key slots of the region hold `keys`. The last one allowed lies over the first offset. -/
structure KeySlots (a : ModelAllocator) (keys : List Key) : Prop where
  max : a.maxUpperNum = 2 ^ 21 - 1
  num : a.upperAllocNum = keys.length
  le : keys.length ≤ 2 ^ 21
  cur : kUpperModel ≤ a.curAllocSz
  curLe : a.curAllocSz ≤ kUpperModel + keys.length * 2 ^ 32
  stored : ∀ (i : ℕ) (key : Key), keys[i]? = some key → a.memPool.read (8 + 8 * i) 8 = toBytes 8 key

namespace KeySlots

variable {a a' : ModelAllocator} {keys : List Key}

theorem of_construct {m : Memory} {t : ℕ} (h : ModelAllocator.construct m t = .ok a) :
    KeySlots a [] := by
  rw [ModelAllocator.construct] at h
  split at h
  · obtain rfl := Except.ok.inj h
    exact ⟨by norm_num, rfl, by norm_num, le_rfl, by simp, fun i _ hi => by simp at hi⟩
  · cases h

theorem store (h : KeySlots a keys) {mSeria : List Byte} {key : Key}
    (hok : a.storeModel mSeria key = .ok a') : KeySlots a' (keys ++ [key]) := by
  have hcur := h.cur
  have hcurLe := h.curLe
  have hmax := h.max
  have hn := h.num
  have hle := h.le
  have hkU : kUpperModel = 2 ^ 25 := by norm_num
  obtain ⟨-, hroom, rfl⟩ := storeModel_eq_ok hok
  have hres : (a.curAllocSz + (mSeria.length + 4) % 2 ^ 32) % 2 ^ 64 =
      a.curAllocSz + (mSeria.length + 4) % 2 ^ 32 :=
    Nat.mod_eq_of_lt (by omega)
  rw [hres, hn]
  refine ⟨hmax, ?_, ?_, ?_, ?_, fun i key' hk => ?_⟩
  · rw [List.length_append, List.length_singleton]
  · rw [List.length_append, List.length_singleton]
    omega
  · dsimp only
    omega
  · dsimp only
    rw [List.length_append, List.length_singleton]
    omega
  rcases getElem?_concat hk with hk | ⟨rfl, rfl⟩
  · have hi := (List.getElem?_eq_some_iff.mp hk).1
    rw [withModel_apart (by omega) (by omega) (by omega)]
    exact h.stored i key' hk
  · exact withModel_keySlot

theorem count (h : KeySlots a keys) {n : ℕ} (hok : a.put 0 (toBytes 8 n) = .ok a') :
    KeySlots a' keys := by
  obtain rfl := put_ok hok
  refine ⟨h.max, h.num, h.le, h.cur, h.curLe, fun i key hk => ?_⟩
  rw [Memory.read_write_apart _ _ (by rw [length_toBytes]; omega)]
  exact h.stored i key hk

end KeySlots

theorem Appended.keySlots {r r' : RolexIndex F V N} {segs : List (List (Key × V))}
    (h : Appended fmt epsilon raw r segs r') (hslots : KeySlots r.RM.modelAllocator r.modelKeys) :
    KeySlots r'.RM.modelAllocator r'.modelKeys := by
  induction h with
  | none => exact hslots
  | append h _ _ hok ih =>
    obtain ⟨m, _, hstore, _, hkeys⟩ := appendSegment_ok hok
    rw [hkeys]
    exact ih.store hstore

/-! ### The compute node -/

theorem words_length {buf : List Byte} {n : ℕ} :
    ∀ {i : ℕ} {ws : List ℕ}, LearnedCache.words buf n i = .ok ws →
    ws.length = n := by
  induction n with
  | zero =>
    intro i ws hok
    obtain rfl := Except.ok.inj hok
    rfl
  | succ n ih =>
    intro i ws hok
    obtain ⟨w, _, hok⟩ := bind_eq_ok hok
    obtain ⟨rest, hrest, hok⟩ := bind_eq_ok hok
    obtain rfl := Except.ok.inj hok
    rw [List.length_cons, ih hrest]

theorem readModels_length {a : ModelAllocator} {offs : List ℕ} :
    ∀ {i : ℕ} {models : List (SubModel F)}, LearnedCache.readModels fmt raw a offs i = .ok models →
      models.length = offs.length := by
  induction offs with
  | nil =>
    intro i models hok
    obtain rfl := Except.ok.inj hok
    rfl
  | cons off offs ih =>
    intro i models hok
    obtain ⟨size, _, hok⟩ := bind_eq_ok hok
    dsimp only at hok
    split at hok
    · cases hok
    obtain ⟨rSeria, _, hok⟩ := bind_eq_ok hok
    obtain ⟨model, _, hok⟩ := bind_eq_ok hok
    obtain ⟨rest, hrest, hok⟩ := bind_eq_ok hok
    obtain rfl := Except.ok.inj hok
    rw [List.length_cons, List.length_cons, ih hrest]

theorem eq_of_get {a : ModelAllocator} {off len : ℕ} {bs : List Byte} (h : a.get off len = .ok bs) :
    bs = a.memPool.read off len := by
  rw [ModelAllocator.get] at h
  split at h
  · exact (Except.ok.inj h).symm
  · cases h

theorem KeySlots.read_back {a : ModelAllocator} {keys : List Key} (h : KeySlots a keys)
    (hcount : a.memPool.read 0 8 = toBytes 8 keys.length) {c : LearnedCache F}
    (hok : LearnedCache.readRemoteIndex fmt raw a = .ok c) :
    c.modelKeys = keys ∧ c.models.length = keys.length := by
  have hle := h.le
  obtain ⟨total, htotal, hok⟩ := bind_eq_ok hok
  obtain rfl : total = toBytes 8 keys.length := (eq_of_get htotal).trans hcount
  have hval : ofBytes (toBytes 8 keys.length) = keys.length := ofBytes_toBytes (by omega)
  rw [hval] at hok
  obtain ⟨keysBuf, hkeysBuf, hok⟩ := bind_eq_ok hok
  obtain ⟨offsBuf, _, hok⟩ := bind_eq_ok hok
  obtain ⟨ws, hws, hok⟩ := bind_eq_ok hok
  obtain ⟨offs, hoffs, hok⟩ := bind_eq_ok hok
  obtain ⟨models, hmodels, hok⟩ := bind_eq_ok hok
  obtain rfl := Except.ok.inj hok
  obtain rfl := eq_of_get hkeysBuf
  rw [Nat.mod_eq_of_lt (by omega)] at hws
  have hwords : LearnedCache.words (a.memPool.read 8 (8 * keys.length)) keys.length 0 =
      .ok ((keys.map Fin.val).drop 0) := by
    refine words_ok (fun i w hw => ?_) (by rw [List.length_map]) (by rw [List.length_map]; omega)
    obtain ⟨key, hkey, rfl⟩ := Option.map_eq_some_iff.mp (List.getElem?_map ▸ hw)
    exact ⟨h.stored i key hkey, key.isLt⟩
  obtain rfl := Except.ok.inj (hwords.symm.trans hws)
  refine ⟨?_, (readModels_length hmodels).trans (words_length hoffs)⟩
  rw [List.drop_zero, List.map_map]
  exact List.map_id'' (fun k => Fin.ofNat_val_eq_self k) _

/-- After a training, the lookup in the index and in a copy of it is defined and right unless
`add_point` takes all keys into one segment. -/
theorem model_for_key_iff {mem : Memory} {t : ℕ} {r r' : RolexIndex F V N}
    (halloc : ModelAllocator.construct mem t = .ok r.RM.modelAllocator) (hmodels : r.models = [])
    (hkeys : r.modelKeys = []) {data : List (Key × V)} (hne : data ≠ [])
    (hok : r.train fmt epsilon raw data = .ok r') (key : Key) :
    ((∃ i, Branchless.modelForKey r'.modelKeys r'.models.length key = .ok i ∧
      Responsible r'.modelKeys r'.models.length key i) ↔
      RolexIndex.oneSegment epsilon data = false) ∧
    ∀ c raw', LearnedCache.readRemoteIndex fmt raw' r'.RM.modelAllocator = .ok c →
      ((∃ i, Branchless.modelForKey c.modelKeys c.models.length key = .ok i ∧
        Responsible c.modelKeys c.models.length key i) ↔
        RolexIndex.oneSegment epsilon data = false) := by
  have hasc := ascending_of_train hok
  have htwo := RolexIndex.train_two_iff hmodels hne hok
  obtain ⟨hlen, segs, r₁, alloc, happ, rfl, hput, rfl⟩ := RolexIndex.train_appended hne hok
  obtain ⟨hsegs, hnum, hnonempty⟩ := happ.modelKeys
  rw [hkeys, List.nil_append] at hsegs
  rw [hmodels, List.length_nil, Nat.zero_add] at hnum
  dsimp only at htwo ⊢
  have hsame : r₁.models.length = r₁.modelKeys.length := by rw [hnum, hsegs, List.length_map]
  have hkeysAsc : r₁.modelKeys.Pairwise (· < ·) := hsegs ▸ ascending_lastKeys hasc hnonempty
  have hkeysNe : r₁.modelKeys ≠ [] := by
    rintro hnil
    rw [hnil, List.length_nil, hnum, List.length_eq_zero_iff] at hsame
    exact hne (by rw [hsame, List.flatten_nil])
  have hkeysLen : r₁.modelKeys.length < 2 ^ 31 := by
    have hcount : segs.length ≤ segs.flatten.length := by
      rw [List.length_flatten]
      have hpos := List.length_le_sum_of_one_le (segs.map List.length) fun n hn => by
        obtain ⟨seg, hseg, rfl⟩ := List.mem_map.mp hn
        exact List.length_pos_iff.mpr (hnonempty seg hseg)
      rwa [List.length_map] at hpos
    omega
  have hlookup := modelForKey_returns_iff hkeysAsc hkeysNe hkeysLen key
  have hslots := (happ.keySlots (hkeys ▸ KeySlots.of_construct halloc)).count hput
  have hcount : alloc.memPool.read 0 8 = toBytes 8 r₁.modelKeys.length := by
    rw [← hsame]
    have hget := get_of_put hput
    rw [length_toBytes] at hget
    exact (eq_of_get hget).symm
  rw [hsame] at htwo ⊢
  refine ⟨hlookup.trans htwo, fun c raw' hc => ?_⟩
  obtain ⟨hckeys, hclen⟩ := hslots.read_back hcount hc
  rw [hclen, hckeys]
  exact hlookup.trans htwo

theorem model_for_key_iff_gap : ∃ (r' : RolexIndex (Fin (2 ^ 64)) ℕ 2) (i : ℕ),
    emptyStored.train binary64 1 noEntries gapData = .ok r' ∧
    Branchless.modelForKey r'.modelKeys r'.models.length 7 = .ok i ∧
    Responsible r'.modelKeys r'.models.length 7 i := by
  obtain ⟨r', hr, _⟩ := exists_ok (p := fun _ : RolexIndex (Fin (2 ^ 64)) ℕ 2 => true)
    (by decide +kernel : (emptyStored.train binary64 1 noEntries gapData).toOption.any _ = true)
  obtain ⟨i, hi, hres⟩ :=
    (model_for_key_iff emptyStored_construct rfl rfl (by decide) hr 7).1.mpr (by decide +kernel)
  exact ⟨r', i, hr, hi, hres⟩

theorem model_for_key_undefined : ∃ r' : RolexIndex (Fin (2 ^ 64)) ℕ 2,
    emptyStored.train binary64 1 noEntries [(5, 50)] = .ok r' ∧
    Branchless.modelForKey r'.modelKeys r'.models.length 5 = .error .clzOfZero ∧
    ¬∃ i, Branchless.modelForKey r'.modelKeys r'.models.length 5 = .ok i ∧
      Responsible r'.modelKeys r'.models.length 5 i := by
  obtain ⟨r', hr, hp⟩ := exists_ok (p := fun r : RolexIndex (Fin (2 ^ 64)) ℕ 2 =>
      decide (r.modelKeys = [5] ∧ r.models.length = 1))
    (by decide +kernel : (emptyStored.train binary64 1 noEntries [(5, 50)]).toOption.any _ = true)
  obtain ⟨hkeys, hlen⟩ := of_decide_eq_true hp
  have hfault : Branchless.modelForKey r'.modelKeys r'.models.length 5 = .error .clzOfZero := by
    rw [hkeys, hlen]
    exact Branchless.modelForKey_one rfl
  refine ⟨r', hr, hfault, fun ⟨i, hok, _⟩ => ?_⟩
  rw [hfault] at hok
  cases hok

end Rolex
