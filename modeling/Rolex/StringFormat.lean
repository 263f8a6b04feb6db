import Rolex.ModelLookup

/-! The whole index as one string: its length, then each model key with its submodel behind it. The
memory node and the compute nodes read it alike. -/

namespace Rolex
open Bytes

variable {F V : Type} {N : ℕ}

def serializeModels (fmt : DoubleFormat F) : List Key → List (SubModel F) → Except Fault (List Byte)
  | _, [] => .ok []
  | [], _ :: _ => .error .outOfBounds
  | key :: keys, m :: models => do
    let mSeria := m.serialize fmt
    let rest ← serializeModels fmt keys models
    .ok (toBytes 8 key ++ (toBytes 4 mSeria.length ++ (mSeria ++ rest)))

def RolexIndex.serialize (fmt : DoubleFormat F) (r : RolexIndex F V N) :
    Except Fault (List Byte) := do
  let ans ← serializeModels fmt r.modelKeys r.models
  .ok (toBytes 4 ans.length ++ ans)

def deserializeEntry (fmt : DoubleFormat F) (raw : Fin kSynonymMax → TableEntry) (seria : List Byte)
    (cur : ℕ) : Except Fault (Key × SubModel F × ℕ) := do
  -- model_key
  let key ← deserializeAt seria cur 8
  -- model
  let w ← deserializeAt seria (cur + 8) 4
  let mSize := toInt32 w
  let mSeria ← substring seria (cur + 12) mSize
  let model ← SubModel.deserialize fmt raw mSeria
  .ok (Fin.ofNat _ key, model, mSize.toNat)

/-- `while(cur_ptr - seria.data()<seria.size())`; returns where the loop ends. -/
def deserializeLoop (fmt : DoubleFormat F) (raw : ℕ → Fin kSynonymMax → TableEntry)
    (seria : List Byte) (cur : ℕ) (keys : List Key) (models : List (SubModel F)) :
    Except Fault (ℕ × List Key × List (SubModel F)) :=
  if cur < seria.length then do
    let e ← deserializeEntry fmt (raw models.length) seria cur
    deserializeLoop fmt raw seria (cur + 12 + e.2.2) (keys ++ [e.1]) (models ++ [e.2.1])
  else .ok (cur, keys, models)
termination_by seria.length - cur

def deserializeString (fmt : DoubleFormat F) (raw : ℕ → Fin kSynonymMax → TableEntry)
    (seria : List Byte) : Except Fault (ℕ × List Key × List (SubModel F)) :=
  if seria.length > 4 then do
    let w ← deserializeAt seria 0 4
    if (seria.length : ℤ) = (4 + toInt32 w) % 2 ^ 64 then deserializeLoop fmt raw seria 4 [] []
    else .error .badSerialization
  else .error .badSerialization

/-- `Rolex(string_view)`. The pointer to the remote memory is not set. -/
def RolexIndex.ofString (fmt : DoubleFormat F) (RM : RemoteMemory V N)
    (raw : ℕ → Fin kSynonymMax → TableEntry) (seria : List Byte) :
    Except Fault (RolexIndex F V N) := do
  let res ← deserializeString fmt raw seria
  .ok ⟨RM, res.2.1, res.2.2⟩

def LearnedCache.ofString (fmt : DoubleFormat F) (raw : ℕ → Fin kSynonymMax → TableEntry)
    (seria : List Byte) : Except Fault (LearnedCache F) := do
  let res ← deserializeString fmt raw seria
  .ok ⟨res.2.1, [], res.2.2⟩

/-! ### The round trip -/

variable {fmt : DoubleFormat F} {raw : ℕ → Fin kSynonymMax → TableEntry}

theorem serialize_unlocked (m : SubModel F) : m.unlocked.serialize fmt = m.serialize fmt := rfl

theorem serializeModels_unlocked {models : List (SubModel F)} : ∀ {keys : List Key},
    serializeModels fmt keys (models.map SubModel.unlocked) = serializeModels fmt keys models := by
  induction models with
  | nil => exact fun {keys} => rfl
  | cons m models ih =>
    intro keys
    cases keys with
    | nil => rfl
    | cons key keys => rw [List.map_cons, serializeModels, serializeModels, ih, serialize_unlocked]

theorem deserializeEntry_append (hst : fmt.Stored) (pre rest : List Byte) (key : Key)
    {m : SubModel F} (hcap : m.capacity < 2 ^ 64) (hm : (m.serialize fmt).length < 2 ^ 31)
    (raw : Fin kSynonymMax → TableEntry) :
    deserializeEntry fmt raw (pre ++ (toBytes 8 key ++ (toBytes 4 (m.serialize fmt).length ++
      (m.serialize fmt ++ rest)))) pre.length =
      .ok (key, m.unlocked, (m.serialize fmt).length) := by
  have hmodel := SubModel.deserialize_serialize hst hcap hm raw
  generalize m.serialize fmt = mSeria at hm hmodel ⊢
  have hkey := deserializeAt_append pre (toBytes 4 mSeria.length ++ (mSeria ++ rest)) (w := 8)
    (n := key) (key.isLt.trans_le (by norm_num))
  have hsize := deserializeAt_append (pre ++ toBytes 8 key) (mSeria ++ rest) (w := 4)
    (n := mSeria.length) (by omega)
  have hstring := substring_append (pre ++ (toBytes 8 key ++ toBytes 4 mSeria.length)) rest
    (rfl : (mSeria.length : ℤ) = _)
  simp only [List.append_assoc, List.length_append, length_toBytes] at hsize hstring
  rw [deserializeEntry, hkey, ok_bind, hsize, ok_bind, toInt32_of_lt hm]
  dsimp only
  rw [hstring, ok_bind, hmodel, ok_bind, Int.toNat_natCast, Fin.ofNat_val_eq_self]

theorem deserializeLoop_append (hst : fmt.Stored) {models : List (SubModel F)} :
    ∀ {keys : List Key} {bytes : List Byte} (pre : List Byte) (keys₀ : List Key)
    (models₀ : List (SubModel F)),
      keys.length = models.length → (∀ m ∈ models, m.capacity < 2 ^ 64) →
      serializeModels fmt keys models = .ok bytes → bytes.length < 2 ^ 31 →
      deserializeLoop fmt raw (pre ++ bytes) pre.length keys₀ models₀ =
        .ok ((pre ++ bytes).length, keys₀ ++ keys, models₀ ++ models.map SubModel.unlocked) := by
  induction models with
  | nil =>
    intro keys bytes pre keys₀ models₀ hlen _ hser _
    obtain rfl := List.length_eq_zero_iff.mp hlen
    obtain rfl := Except.ok.inj hser
    rw [deserializeLoop, if_neg (by simp)]
    simp
  | cons m models ih =>
    intro keys bytes pre keys₀ models₀ hlen hcap hser hbytes
    cases keys with
    | nil => cases hlen
    | cons key keys =>
      obtain ⟨rest, hrest, hok⟩ := bind_eq_ok hser
      obtain rfl := Except.ok.inj hok
      simp only [List.length_append, length_toBytes] at hbytes
      have hentry := deserializeEntry_append hst pre rest key (hcap m List.mem_cons_self) (by omega)
        (raw models₀.length)
      have hnext :=
        ih (pre ++ (toBytes 8 key ++ (toBytes 4 (m.serialize fmt).length ++ m.serialize fmt)))
        (keys₀ ++ [key]) (models₀ ++ [m.unlocked]) (Nat.succ_inj.mp hlen)
        (fun x hx => hcap x (List.mem_cons_of_mem _ hx)) hrest (by omega)
      simp only [List.append_assoc, List.length_append, length_toBytes,
        List.singleton_append] at hnext ⊢
      have hcur : pre.length + (8 + (4 + (m.serialize fmt).length)) =
          pre.length + 12 + (m.serialize fmt).length := by
        omega
      rw [hcur] at hnext
      rw [deserializeLoop, if_pos (by simp), hentry, ok_bind, List.map_cons, hnext]

theorem serializeModels_ne_nil {keys : List Key} {models : List (SubModel F)} (hne : models ≠ [])
    {bytes : List Byte} (hser : serializeModels fmt keys models = .ok bytes) : bytes ≠ [] := by
  obtain ⟨m, models, rfl⟩ := List.exists_cons_of_ne_nil hne
  cases keys with
  | nil => cases hser
  | cons key keys =>
    obtain ⟨rest, _, hok⟩ := bind_eq_ok hser
    obtain rfl := Except.ok.inj hok
    exact List.append_ne_nil_of_left_ne_nil
      (List.ne_nil_of_length_pos (by rw [length_toBytes]; norm_num)) _

/-- Both constructors read back what `serialize` writes, up to the end of the string. -/
theorem string_round_trip (hst : fmt.Stored) {r : RolexIndex F V N}
    (hlen : r.modelKeys.length = r.models.length) (hne : r.models ≠ [])
    (hcap : ∀ m ∈ r.models, m.capacity < 2 ^ 64) {seria : List Byte}
    (hser : r.serialize fmt = .ok seria) (hshort : seria.length < 2 ^ 31) (RM : RemoteMemory V N)
    (raw : ℕ → Fin kSynonymMax → TableEntry) :
    deserializeString fmt raw seria =
    .ok (seria.length, r.modelKeys, r.models.map SubModel.unlocked) ∧
      RolexIndex.ofString fmt RM raw seria = .ok { r.rebuilt with RM := RM } ∧
      LearnedCache.ofString fmt raw seria = .ok ⟨r.modelKeys, [], r.models.map SubModel.unlocked⟩ ∧
      ({ r.rebuilt with RM := RM } : RolexIndex F V N).serialize fmt = .ok seria := by
  have hsame : ({ r.rebuilt with RM := RM } : RolexIndex F V N).serialize fmt =
      r.serialize fmt := by
    rw [RolexIndex.serialize, RolexIndex.serialize, RolexIndex.rebuilt, serializeModels_unlocked]
  obtain ⟨ans, hans, hok⟩ := bind_eq_ok hser
  obtain rfl := Except.ok.inj hok
  rw [List.length_append, length_toBytes] at hshort
  have hpos : 0 < ans.length := List.length_pos_iff.mpr (serializeModels_ne_nil hne hans)
  have hfour : ans.length < 256 ^ 4 := by omega
  have hfirst : deserializeAt (toBytes 4 ans.length ++ ans) 0 4 = .ok ans.length :=
    deserializeAt_append [] ans hfour
  have hloop : deserializeLoop fmt raw (toBytes 4 ans.length ++ ans) 4 [] [] =
      .ok ((toBytes 4 ans.length ++ ans).length, r.modelKeys, r.models.map SubModel.unlocked) := by
    have hloop : deserializeLoop fmt raw (toBytes 4 ans.length ++ ans) (toBytes 4 ans.length).length
        [] [] = _ :=
      deserializeLoop_append hst (toBytes 4 ans.length) [] [] hlen hcap hans (by omega)
    rwa [length_toBytes] at hloop
  have hread : deserializeString fmt raw (toBytes 4 ans.length ++ ans) =
      .ok ((toBytes 4 ans.length ++ ans).length, r.modelKeys, r.models.map SubModel.unlocked) := by
    rw [deserializeString, if_pos (by rw [List.length_append, length_toBytes]; omega), hfirst,
      ok_bind, toInt32_of_lt (by omega), if_pos (by rw [List.length_append, length_toBytes]; omega),
      hloop]
  refine ⟨hread, ?_, ?_, hsame.trans hser⟩
  · rw [RolexIndex.ofString, hread, ok_bind]
    rfl
  · rw [LearnedCache.ofString, hread, ok_bind]

theorem string_round_trip_gap : ∃ r seria, emptyStored.train binary64 1 noEntries gapData = .ok r ∧
    r.serialize binary64 = .ok seria ∧
    LearnedCache.ofString binary64 noEntries seria =
    .ok ⟨r.modelKeys, [], r.models.map SubModel.unlocked⟩ := by
  obtain ⟨r, hr, hp⟩ := exists_ok (p := fun r : RolexIndex (Fin (2 ^ 64)) ℕ 2 =>
      (decide (r.modelKeys.length = 2 ∧ r.models.length = 2) &&
        r.models.all fun m => decide (m.capacity < 2 ^ 64)) &&
      (r.serialize binary64).toOption.any fun seria : List Byte => decide (seria.length < 2 ^ 31))
    (by decide +kernel : (emptyStored.train binary64 1 noEntries gapData).toOption.any _ = true)
  obtain ⟨hp, hser⟩ := Bool.and_eq_true_iff.mp hp
  obtain ⟨hlen, hcap⟩ := Bool.and_eq_true_iff.mp hp
  obtain ⟨hkeys, hmodels⟩ := of_decide_eq_true hlen
  obtain ⟨seria, hser, hshort⟩ := exists_ok hser
  exact ⟨r, seria, hr, hser, (string_round_trip (fun _ => rfl) (hkeys.trans hmodels.symm)
    (List.length_pos_iff.mp (by rw [hmodels]; norm_num))
    (fun m hm => of_decide_eq_true (List.all_eq_true.mp hcap m hm)) hser
    (of_decide_eq_true hshort) emptyStored.RM noEntries).2.2.1⟩

end Rolex
