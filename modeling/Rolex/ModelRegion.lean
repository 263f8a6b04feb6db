import Rolex.LearnedCache
import Rolex.IndexLayout

/-! The model region after training: one key slot, one offset slot and one submodel for each
segment, apart from each other. Both readers of the region find all of them there. -/

namespace Rolex
open Bytes

variable {F V : Type} {N : ℕ} {fmt : DoubleFormat F} {epsilon : ℕ}
  {raw : ℕ → Fin kSynonymMax → TableEntry}

structure StoredAt (fmt : DoubleFormat F) (a : ModelAllocator) (i off : ℕ) (key : Key)
    (m : SubModel F) : Prop where
  keySlot : a.memPool.read (8 + 8 * i) 8 = toBytes 8 key
  offSlot : a.memPool.read (kUpperModel / 2 + 8 * i) 8 = toBytes 8 off
  ge : kUpperModel ≤ off
  le : off + (4 + (m.serialize fmt).length) ≤ a.curAllocSz
  size : a.memPool.read off 4 = toBytes 4 (m.serialize fmt).length
  model : a.memPool.read (off + 4) (m.serialize fmt).length = m.serialize fmt

/-- The region holds the models `models` with the keys `keys` at the offsets `offs`. -/
structure Region (fmt : DoubleFormat F) (a : ModelAllocator) (keys : List Key) (offs : List ℕ)
    (models : List (SubModel F)) : Prop where
  max : a.maxUpperNum = 2 ^ 21 - 1
  num : a.upperAllocNum = models.length
  keysLength : keys.length = models.length
  offsLength : offs.length = models.length
  cur : kUpperModel ≤ a.curAllocSz
  curLe : a.curAllocSz ≤ a.totalSz
  curLt : a.curAllocSz ≤ kUpperModel + models.length * 2 ^ 32
  stored : ∀ (i : ℕ) (key : Key) (off : ℕ) (m : SubModel F), keys[i]? = some key →
    offs[i]? = some off →
    models[i]? = some m → StoredAt fmt a i off key m

theorem put_ok {a a' : ModelAllocator} {off : ℕ} {bs : List Byte} (h : a.put off bs = .ok a') :
    a' = { a with memPool := a.memPool.write off bs } := by
  rw [ModelAllocator.put] at h
  split at h
  · exact (Except.ok.inj h).symm
  · cases h

/-! ### Storing one model -/

section Store

/-- The size and the bytes of a model at `cur`, its key and its offset in the `i`-th slots. -/
def withModel (mem : Memory) (i cur : ℕ) (mSeria : List Byte) (key : Key) : Memory :=
  (((mem.write cur (toBytes 4 mSeria.length)).write (cur + 4) mSeria).write (8 + 8 * i)
    (toBytes 8 key)).write (8 * i + kUpperModel / 2) (toBytes 8 cur)

theorem storeModel_eq_ok {a a' : ModelAllocator} {mSeria : List Byte} {key : Key}
    (hok : a.storeModel mSeria key = .ok a') :
    let res := (a.curAllocSz + (mSeria.length + 4) % 2 ^ 32) % 2 ^ 64
    res ≤ a.totalSz ∧ a.upperAllocNum ≤ a.maxUpperNum ∧
      a' = { a with
        curAllocSz := res
        upperAllocNum := a.upperAllocNum + 1
        memPool := withModel a.memPool a.upperAllocNum a.curAllocSz mSeria key } := by
  obtain ⟨⟨off, a₁⟩, halloc, hok⟩ := bind_eq_ok hok
  obtain ⟨a₂, hput₂, hok⟩ := bind_eq_ok hok
  obtain ⟨a₃, hput₃, hok⟩ := bind_eq_ok hok
  obtain ⟨⟨⟨slotKey, slotOff⟩, a₄⟩, hupper, hok⟩ := bind_eq_ok hok
  obtain ⟨a₅, hput₅, hput₆⟩ := bind_eq_ok hok
  rw [ModelAllocator.allocSubmodel] at halloc
  split at halloc
  · cases halloc
  rename_i hfit
  obtain ⟨rfl, rfl⟩ := Prod.mk.inj (Except.ok.inj halloc)
  obtain rfl := put_ok hput₂
  obtain rfl := put_ok hput₃
  rw [ModelAllocator.allocUpper] at hupper
  split at hupper
  · cases hupper
  rename_i hroom
  obtain ⟨hslots, rfl⟩ := Prod.mk.inj (Except.ok.inj hupper)
  obtain ⟨rfl, rfl⟩ := Prod.mk.inj hslots
  obtain rfl := put_ok hput₅
  obtain rfl := put_ok hput₆
  exact ⟨not_lt.mp hfit, not_lt.mp hroom, rfl⟩

variable {mem : Memory} {i cur : ℕ} {mSeria : List Byte} {key : Key}

theorem withModel_apart {p l : ℕ} (hcur : p + l ≤ cur)
    (hkey : p + l ≤ 8 + 8 * i ∨ 8 + 8 * i + 8 ≤ p)
    (hoff : p + l ≤ 8 * i + kUpperModel / 2 ∨ 8 * i + kUpperModel / 2 + 8 ≤ p) :
    (withModel mem i cur mSeria key).read p l = mem.read p l := by
  rw [withModel, Memory.read_write_apart _ _ (by rw [length_toBytes]; omega),
    Memory.read_write_apart _ _ (by rw [length_toBytes]; omega),
    Memory.read_write_apart _ _ (by omega), Memory.read_write_apart _ _ (by omega)]

theorem withModel_keySlot :
    (withModel mem i cur mSeria key).read (8 + 8 * i) 8 = toBytes 8 key := by
  have hkU : kUpperModel = 2 ^ 25 := by norm_num
  rw [withModel, Memory.read_write_apart _ _ (by rw [length_toBytes]; omega)]
  exact Memory.read_write_self _ _ (toBytes 8 key)

theorem withModel_offSlot :
    (withModel mem i cur mSeria key).read (8 * i + kUpperModel / 2) 8 = toBytes 8 cur :=
  Memory.read_write_self _ _ (toBytes 8 cur)

theorem withModel_size (hi : 8 * i + 8 ≤ kUpperModel / 2) (hcur : kUpperModel ≤ cur) :
    (withModel mem i cur mSeria key).read cur 4 = toBytes 4 mSeria.length := by
  rw [withModel, Memory.read_write_apart _ _ (by rw [length_toBytes]; omega),
    Memory.read_write_apart _ _ (by rw [length_toBytes]; omega),
    Memory.read_write_apart _ _ (by omega)]
  exact Memory.read_write_self _ _ (toBytes 4 mSeria.length)

theorem withModel_model (hi : 8 * i + 8 ≤ kUpperModel / 2) (hcur : kUpperModel ≤ cur) :
    (withModel mem i cur mSeria key).read (cur + 4) mSeria.length = mSeria := by
  rw [withModel, Memory.read_write_apart _ _ (by rw [length_toBytes]; omega),
    Memory.read_write_apart _ _ (by rw [length_toBytes]; omega)]
  exact Memory.read_write_self _ _ mSeria

end Store

/-- Fewer models than key slots, so that the slots of the keys end before those of the offsets. -/
theorem Region.store {a a' : ModelAllocator} {keys : List Key} {offs : List ℕ}
    {models : List (SubModel F)} (h : Region fmt a keys offs models)
    (hnum : models.length < 2 ^ 21 - 1) {m : SubModel F} (hm : (m.serialize fmt).length < 2 ^ 31)
    {key : Key} (hok : a.storeModel (m.serialize fmt) key = .ok a') :
    Region fmt a' (keys ++ [key]) (offs ++ [a.curAllocSz]) (models ++ [m]) := by
  have hcur := h.cur
  have hcurLt := h.curLt
  have hn := h.num
  have hkU : kUpperModel = 2 ^ 25 := by norm_num
  obtain ⟨hfit, -, rfl⟩ := storeModel_eq_ok hok
  have hres : (a.curAllocSz + ((m.serialize fmt).length + 4) % 2 ^ 32) % 2 ^ 64 =
      a.curAllocSz + ((m.serialize fmt).length + 4) := by
    rw [Nat.mod_eq_of_lt (by omega : (m.serialize fmt).length + 4 < 2 ^ 32),
      Nat.mod_eq_of_lt (by omega)]
  rw [hres] at hfit ⊢
  rw [hn]
  refine ⟨h.max, ?_, ?_, ?_, ?_, hfit, ?_, fun i key' off' m' hk ho hm' => ?_⟩
  · rw [List.length_append, List.length_singleton]
  · rw [List.length_append, List.length_append, h.keysLength]
    rfl
  · rw [List.length_append, List.length_append, h.offsLength]
    rfl
  · dsimp only
    omega
  · dsimp only
    rw [List.length_append, List.length_singleton]
    omega
  rcases getElem?_concat hm' with hm' | ⟨rfl, rfl⟩
  · have hi := (List.getElem?_eq_some_iff.mp hm').1
    have hk : keys[i]? = some key' := by
      rwa [List.getElem?_append_left (by rw [h.keysLength]; exact hi)] at hk
    have ho : offs[i]? = some off' := by
      rwa [List.getElem?_append_left (by rw [h.offsLength]; exact hi)] at ho
    have hst := h.stored i key' off' m' hk ho hm'
    have hge := hst.ge
    have hle := hst.le
    -- the old bytes are apart from the four new blocks
    refine ⟨?_, ?_, hge, by dsimp only; omega, ?_, ?_⟩
    · rw [withModel_apart (by omega) (by omega) (by omega)]
      exact hst.keySlot
    · rw [withModel_apart (by omega) (by omega) (by omega)]
      exact hst.offSlot
    · rw [withModel_apart (by omega) (by omega) (by omega)]
      exact hst.size
    · rw [withModel_apart (by omega) (by omega) (by omega)]
      exact hst.model
  · rw [← h.keysLength, List.getElem?_concat_length] at hk
    rw [← h.offsLength, List.getElem?_concat_length] at ho
    obtain rfl := Option.some.inj hk
    obtain rfl := Option.some.inj ho
    refine ⟨withModel_keySlot, ?_, hcur, by dsimp only; omega, withModel_size (by omega) hcur,
      withModel_model (by omega) hcur⟩
    rw [Nat.add_comm (kUpperModel / 2)]
    exact withModel_offSlot

theorem Region.count {a a' : ModelAllocator} {keys : List Key} {offs : List ℕ}
    {models : List (SubModel F)} {n : ℕ} (h : Region fmt a keys offs models)
    (hok : a.put 0 (toBytes 8 n) = .ok a') : Region fmt a' keys offs models := by
  obtain rfl := put_ok hok
  have hkU : kUpperModel = 2 ^ 25 := by norm_num
  have happ : ∀ p l, 8 ≤ p → (a.memPool.write 0 (toBytes 8 n)).read p l = a.memPool.read p l :=
    fun p l hp =>
    Memory.read_write_apart _ _ (by rw [length_toBytes]; omega)
  refine ⟨h.max, h.num, h.keysLength, h.offsLength, h.cur, h.curLe, h.curLt,
    fun i key off m hk ho hm => ?_⟩
  have hst := h.stored i key off m hk ho hm
  have hge := hst.ge
  refine ⟨?_, ?_, hst.ge, hst.le, ?_, ?_⟩
  · rw [happ _ _ (by omega)]
    exact hst.keySlot
  · rw [happ _ _ (by omega)]
    exact hst.offSlot
  · rw [happ _ _ (by omega)]
    exact hst.size
  · rw [happ _ _ (by omega)]
    exact hst.model

theorem Region.of_construct {m : Memory} {t : ℕ} {a : ModelAllocator}
    (h : ModelAllocator.construct m t = .ok a) :
    Region fmt a [] [] [] ∧ a.memPool.read 0 8 = toBytes 8 0 := by
  rw [ModelAllocator.construct] at h
  split at h
  · rename_i ht
    obtain rfl := Except.ok.inj h
    refine ⟨⟨by norm_num, rfl, rfl, rfl, le_rfl, ht.le, by simp, fun i _ _ _ hk => by simp at hk⟩,
      ?_⟩
    have hcount := Memory.read_write_self m 0 (toBytes 8 0)
    rwa [length_toBytes] at hcount
  · cases h

theorem Appended.region {r r' : RolexIndex F V N} {segs : List (List (Key × V))}
    (h : Appended fmt epsilon raw r segs r') (hregion : Region fmt r.RM.modelAllocator [] [] [])
    (hmodels : r.models = []) (hkeys : r.modelKeys = []) (hnum : r'.models.length < 2 ^ 21 - 1)
    (hser : ∀ m ∈ r'.models, (m.serialize fmt).length < 2 ^ 31) :
    ∃ offs, Region fmt r'.RM.modelAllocator r'.modelKeys offs r'.models := by
  induction h with
  | none =>
    rw [hmodels, hkeys]
    exact ⟨[], hregion⟩
  | append h hne hend hok ih =>
    obtain ⟨m, _, hstore, hmodels', hkeys'⟩ := appendSegment_ok hok
    rw [hmodels'] at hnum hser
    rw [List.length_append, List.length_singleton] at hnum
    obtain ⟨offs, hold⟩ := ih (by omega) fun x hx => hser x (List.mem_append_left _ hx)
    have hm := hser m (List.mem_append_right _ (List.mem_singleton_self _))
    rw [hmodels', hkeys']
    exact ⟨_, hold.store (by omega) hm hstore⟩

/-! ### Reading the region -/

section Read

variable {a : ModelAllocator} {keys : List Key} {offs : List ℕ} {models : List (SubModel F)}

theorem get_ok {off len : ℕ} (h : off + len ≤ a.totalSz) :
    a.get off len = .ok (a.memPool.read off len) := if_pos h

theorem Region.model_ok (h : Region fmt a keys offs models) (hst : fmt.Stored)
    (hcap : ∀ m ∈ models, m.capacity < 2 ^ 64)
    (hser : ∀ m ∈ models, (m.serialize fmt).length < 2 ^ 31) {i : ℕ} {key : Key} {off : ℕ}
    {m : SubModel F} (hk : keys[i]? = some key) (ho : offs[i]? = some off)
    (hm : models[i]? = some m) (raw : Fin kSynonymMax → TableEntry) :
    a.get off 4 = .ok (toBytes 4 (m.serialize fmt).length) ∧
      toInt32 (ofBytes (toBytes 4 (m.serialize fmt).length)) = (m.serialize fmt).length ∧
      a.get (off + 4) (m.serialize fmt).length = .ok (m.serialize fmt) ∧
      SubModel.deserialize fmt raw (m.serialize fmt) = .ok m.unlocked := by
  have hat := h.stored i key off m hk ho hm
  have hlen := hser m (List.mem_of_getElem? hm)
  have hle := hat.le
  have hcurLe := h.curLe
  refine ⟨?_, ?_, ?_, SubModel.deserialize_serialize hst
    (hcap m (List.mem_of_getElem? hm)) hlen raw⟩
  · rw [get_ok (by omega), hat.size]
  · rw [ofBytes_toBytes (by omega), toInt32_of_lt (by omega)]
  · rw [get_ok (by omega), hat.model]

theorem Region.off_lt (h : Region fmt a keys offs models) (hnum : models.length < 2 ^ 21) {i : ℕ}
    {key : Key} {off : ℕ} {m : SubModel F} (hk : keys[i]? = some key) (ho : offs[i]? = some off)
    (hm : models[i]? = some m) : off < 2 ^ 64 := by
  have hle := (h.stored i key off m hk ho hm).le
  have hcur := h.curLt
  have hkU : kUpperModel = 2 ^ 25 := by norm_num
  omega

theorem deserializeModels_ok (hst : fmt.Stored) (hnum : models.length < 2 ^ 21 - 1)
    (hcap : ∀ m ∈ models, m.capacity < 2 ^ 64)
    (hser : ∀ m ∈ models, (m.serialize fmt).length < 2 ^ 31) {n : ℕ} :
    ∀ {i : ℕ} {r : RolexIndex F V N}, Region fmt r.RM.modelAllocator keys offs models →
      i + n = models.length →
      r.deserializeModels fmt raw n i = .ok { r with
        modelKeys := r.modelKeys ++ keys.drop i
        models := r.models ++ (models.drop i).map SubModel.unlocked } := by
  induction n with
  | zero =>
    intro i r h hi
    have hkeys := h.keysLength
    rw [List.drop_of_length_le (by omega), List.drop_of_length_le (by omega), List.append_nil,
      List.map_nil, List.append_nil]
    rfl
  | succ n ih =>
    intro i r h hi
    have hkeys := h.keysLength
    have hoffs := h.offsLength
    have hki : i < keys.length := by omega
    have hoi : i < offs.length := by omega
    have hmi : i < models.length := by omega
    have hk := List.getElem?_eq_getElem hki
    have ho := List.getElem?_eq_getElem hoi
    have hm := List.getElem?_eq_getElem hmi
    have hat := h.stored i _ _ _ hk ho hm
    obtain ⟨hsize, hint, hmodel, hdes⟩ := h.model_ok hst hcap hser hk ho hm (raw i)
    have hoff := h.off_lt (by omega) hk ho hm
    have hcur := h.cur
    have hcurLe := h.curLe
    have hkU : kUpperModel = 2 ^ 25 := by norm_num
    have hkey : r.RM.modelAllocator.get (ModelAllocator.getUpper i).1 8 =
        .ok (toBytes 8 keys[i]) := by
      rw [ModelAllocator.getUpper, get_ok (by dsimp only; omega), Nat.mul_comm i 8, hat.keySlot]
    have hslot : r.RM.modelAllocator.get (ModelAllocator.getUpper i).2 8 =
        .ok (toBytes 8 offs[i]) := by
      rw [ModelAllocator.getUpper, get_ok (by dsimp only; omega), hat.offSlot]
    have hkeyval : Fin.ofNat (2 ^ 64) (ofBytes (toBytes 8 keys[i])) = keys[i] := by
      rw [ofBytes_toBytes (keys[i].isLt.trans_le (by norm_num)), Fin.ofNat_val_eq_self]
    have hoffval : ofBytes (toBytes 8 offs[i]) = offs[i] :=
      ofBytes_toBytes (hoff.trans_le (by norm_num))
    rw [RolexIndex.deserializeModels, hkey, ok_bind, hslot, ok_bind]
    dsimp only
    rw [hoffval, hsize, ok_bind, hint, if_neg (by omega), Int.toNat_natCast, hmodel, ok_bind, hdes,
      ok_bind, hkeyval]
    have hrest := ih (i := i + 1) (r := { r with
      modelKeys := r.modelKeys ++ [keys[i]]
      models := r.models ++ [models[i].unlocked] }) h (by omega)
    rw [hrest, List.drop_eq_getElem_cons hki, List.drop_eq_getElem_cons hmi, List.map_cons,
      List.append_assoc, List.append_assoc]
    rfl

/-! ### The compute node -/

theorem Memory.read_slice (m : Memory) (off : ℕ) {len p n : ℕ} (h : p + n ≤ len) :
    ((m.read off len).drop p).take n = m.read (off + p) n := by
  obtain ⟨rest, rfl⟩ := Nat.exists_eq_add_of_le h
  rw [Nat.add_assoc, Memory.read_add, List.drop_append_of_le_length (by simp),
    List.drop_of_length_le (by simp), List.nil_append, Memory.read_add,
    List.take_append_of_le_length (by simp), List.take_of_length_le (by simp)]

theorem words_ok {mem : Memory} {off len : ℕ} {ws : List ℕ} {n : ℕ}
    (hws : ∀ i w, ws[i]? = some w → mem.read (off + 8 * i) 8 = toBytes 8 w ∧ w < 2 ^ 64)
    (hlen : 8 * ws.length ≤ len) : ∀ {i : ℕ}, i + n = ws.length →
      LearnedCache.words (mem.read off len) n i = .ok (ws.drop i) := by
  induction n with
  | zero =>
    intro i hi
    rw [List.drop_of_length_le (by omega)]
    rfl
  | succ n ih =>
    intro i hi
    have hiw : i < ws.length := by omega
    obtain ⟨hread, hlt⟩ := hws i _ (List.getElem?_eq_getElem hiw)
    have hword : LearnedCache.wordAt (mem.read off len) i = .ok ws[i] := by
      rw [LearnedCache.wordAt, if_pos (by rw [Memory.length_read]; omega),
        Memory.read_slice _ _ (by omega), hread, ofBytes_toBytes (hlt.trans_le (by norm_num))]
    rw [LearnedCache.words, hword, ok_bind, ih (by omega), ok_bind, ← List.drop_eq_getElem_cons hiw]

end Read
end Rolex
