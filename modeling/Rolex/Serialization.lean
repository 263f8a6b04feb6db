import Rolex.ModelAllocator
import Rolex.SubModel

/-! Submodels as byte strings. What `serialize` writes, the deserializing constructor reads back,
except for the lock objects of the leaf table. -/

namespace Rolex
open Bytes

/-! ### Reading a string -/

/-- `Marshal<T>::deserialize(cur_ptr, seria.size())` with `cur_ptr` at `off`: the size that it
tests is that of the whole string. -/
def deserializeAt (seria : List Byte) (off w : ℕ) : Except Fault ℕ :=
  if seria.length < w then .error .badSerialization
  else if off + w ≤ seria.length then .ok (ofBytes ((seria.drop off).take w))
    else .error .outOfBounds

def substring (seria : List Byte) (off : ℕ) (n : ℤ) : Except Fault (List Byte) :=
  if n < 0 then .error .badSerialization
  else if off + n.toNat ≤ seria.length then .ok ((seria.drop off).take n.toNat)
    else .error .outOfBounds

def deserializeWords (seria : List Byte) : ℕ → ℕ → Except Fault (List ℕ)
  | 0, _ => .ok []
  | n + 1, off => do
    let w ← deserializeAt seria off 8
    let rest ← deserializeWords seria n (off + 8)
    .ok (w :: rest)

def serializeWords (ws : List ℕ) : List Byte := ws.flatMap (toBytes 8)

theorem length_serializeWords (ws : List ℕ) : (serializeWords ws).length = 8 * ws.length := by
  rw [serializeWords, List.length_flatMap]
  simp only [length_toBytes, List.map_const', List.sum_replicate, smul_eq_mul, Nat.mul_comm]

theorem deserializeAt_append (pre post : List Byte) {w n : ℕ} (hn : n < 256 ^ w) :
    deserializeAt (pre ++ (toBytes w n ++ post)) pre.length w = .ok n := by
  have hlen : (pre ++ (toBytes w n ++ post)).length = pre.length + (w + post.length) := by simp
  rw [deserializeAt, if_neg (by omega), if_pos (by omega), List.drop_left,
    List.take_append_of_le_length (by simp), List.take_of_length_le (by simp), ofBytes_toBytes hn]

theorem substring_append (pre post : List Byte) {mid : List Byte} {n : ℤ} (hn : n = mid.length) :
    substring (pre ++ (mid ++ post)) pre.length n = .ok mid := by
  subst hn
  rw [substring, if_neg (by omega), Int.toNat_natCast, if_pos (by simp), List.drop_left,
    List.take_left]

theorem deserializeWords_append {ws : List ℕ} : ∀ (pre post : List Byte), (∀ w ∈ ws, w < 2 ^ 64) →
    deserializeWords (pre ++ (serializeWords ws ++ post)) ws.length pre.length = .ok ws := by
  induction ws with
  | nil => exact fun _ _ _ => rfl
  | cons w ws ih =>
    intro pre post hws
    have hw : w < 256 ^ 8 := (hws w List.mem_cons_self).trans_le (by norm_num)
    have hcut : pre ++ (serializeWords (w :: ws) ++ post) =
        (pre ++ toBytes 8 w) ++ (serializeWords ws ++ post) := by simp [serializeWords]
    have hrest := ih (pre ++ toBytes 8 w) post fun x hx => hws x (List.mem_cons_of_mem _ hx)
    rw [List.length_append, length_toBytes] at hrest
    rw [List.length_cons, deserializeWords, hcut, hrest, List.append_assoc,
      deserializeAt_append _ _ hw]
    rfl

/-! ### Table entries -/

namespace TableEntry

def val (te : TableEntry) : ℕ :=
  te.lock + 2 * te.leafRegion + 2 ^ 8 * te.synonymLeaf + 2 ^ 16 * te.leafNum

def ofVal (w : ℕ) : TableEntry :=
  ⟨Fin.ofNat _ w, Fin.ofNat _ (w / 2), Fin.ofNat _ (w / 2 ^ 8), Fin.ofNat _ (w / 2 ^ 16)⟩

theorem val_lt (te : TableEntry) : te.val < 2 ^ 64 := by
  obtain ⟨⟨a, ha⟩, ⟨b, hb⟩, ⟨c, hc⟩, ⟨d, hd⟩⟩ := te
  simp only [val]
  omega

theorem ofVal_val (te : TableEntry) : ofVal te.val = te := by
  obtain ⟨⟨a, ha⟩, ⟨b, hb⟩, ⟨c, hc⟩, ⟨d, hd⟩⟩ := te
  simp only [ofVal, val, TableEntry.mk.injEq, Fin.ext_iff, Fin.val_ofNat]
  omega

end TableEntry

/-! ### Leaf tables -/

namespace LeafTable

def serialize (t : LeafTable) : List Byte :=
  toBytes 4 t.table.length ++ (serializeWords (t.table.map TableEntry.val) ++
    serializeWords ((List.ofFn t.synonymTable).map TableEntry.val))

def deserialize (t : LeafTable) (seria : List Byte) : Except Fault LeafTable :=
  if seria.length > 4 ∧ t.table.length = 0 then do
    let w ← deserializeAt seria 0 4
    let tableSize := toInt32 w
    if seria.length ≥ 4 + ((tableSize + kSynonymMax) % 2 ^ 32).toNat * 8 then do
      let words ← deserializeWords seria tableSize.toNat 4
      let synonyms ← deserializeWords seria kSynonymMax (4 + 8 * tableSize.toNat)
      .ok { t with
        table := t.table ++ words.map TableEntry.ofVal
        synonymTable := fun i => TableEntry.ofVal (synonyms.getD i 0) }
    else .error .badSerialization
  else .error .badSerialization

theorem length_serialize (t : LeafTable) : t.serialize.length = 4 + 8 * (t.size + kSynonymMax) := by
  simp only [serialize, List.length_append, length_toBytes, length_serializeWords, List.length_map,
    List.length_ofFn, size]
  omega

theorem deserialize_serialize {t : LeafTable} (h : t.serialize.length < 2 ^ 31)
    (raw : Fin kSynonymMax → TableEntry) :
    (construct raw).deserialize t.serialize = .ok { t with csLocks := [] } := by
  have hlen := t.length_serialize
  have hsize : t.table.length = t.size := rfl
  have hn : t.table.length < 256 ^ 4 := by omega
  have h0 : deserializeAt t.serialize 0 4 = .ok t.table.length := deserializeAt_append [] _ hn
  have hint : toInt32 t.table.length = t.table.length := toInt32_of_lt (by omega)
  have hval : ∀ l : List TableEntry, ∀ w ∈ l.map TableEntry.val, w < 2 ^ 64 := by
    intro l w hw
    obtain ⟨te, _, rfl⟩ := List.mem_map.mp hw
    exact te.val_lt
  have hmap : ∀ l : List TableEntry, (l.map TableEntry.val).map TableEntry.ofVal = l := fun l => by
    rw [List.map_map, (funext TableEntry.ofVal_val : TableEntry.ofVal ∘ TableEntry.val = id),
      List.map_id]
  have h1 : deserializeWords t.serialize t.table.length 4 = .ok (t.table.map TableEntry.val) := by
    have := deserializeWords_append (toBytes 4 t.table.length)
      (serializeWords ((List.ofFn t.synonymTable).map TableEntry.val)) (hval t.table)
    rwa [List.length_map, length_toBytes] at this
  have h2 : deserializeWords t.serialize kSynonymMax (4 + 8 * t.table.length) =
      .ok ((List.ofFn t.synonymTable).map TableEntry.val) := by
    have := deserializeWords_append
      (toBytes 4 t.table.length ++ serializeWords (t.table.map TableEntry.val)) []
      (hval (List.ofFn t.synonymTable))
    rwa [List.length_map, List.length_ofFn, List.length_append, length_toBytes,
      length_serializeWords, List.length_map, List.append_nil, List.append_assoc] at this
  have hmod : (((t.table.length : ℤ) + kSynonymMax) % 2 ^ 32).toNat =
    t.table.length + kSynonymMax := by omega
  have hlarge : t.serialize.length > 4 := by
    have hmax : kSynonymMax = 128 := rfl
    omega
  rw [deserialize, if_pos ⟨hlarge, rfl⟩, h0, ok_bind]
  simp only [hint, hmod, Int.toNat_natCast, h1, h2, ok_bind]
  rw [if_pos (by omega), hmap]
  have hsyn : (fun i : Fin kSynonymMax =>
      TableEntry.ofVal (((List.ofFn t.synonymTable).map TableEntry.val).getD i 0)) =
        t.synonymTable := by
    funext i
    have hi : i.val < ((List.ofFn t.synonymTable).map TableEntry.val).length := by
      rw [List.length_map, List.length_ofFn]
      exact i.isLt
    rw [List.getD_eq_getElem _ _ hi, List.getElem_map, List.getElem_ofFn, TableEntry.ofVal_val]
  rw [hsyn]
  rfl

end LeafTable

/-! ### Submodels -/

variable {F : Type}

def DoubleFormat.Stored (fmt : DoubleFormat F) : Prop := ∀ x, fmt.ofBits (fmt.bits x) = x

namespace LinearRegressionModel

variable (fmt : DoubleFormat F)

def serialize (model : LinearRegressionModel F) : List Byte :=
  toBytes 8 (fmt.bits model.slope) ++ toBytes 8 (fmt.bits model.intercept)

def deserialize (seria : List Byte) : Except Fault (LinearRegressionModel F) :=
  if seria.length = 16 then do
    let slope ← deserializeAt seria 0 8
    let intercept ← deserializeAt seria 8 8
    .ok ⟨fmt.ofBits (Fin.ofNat _ slope), fmt.ofBits (Fin.ofNat _ intercept)⟩
  else .error .badSerialization

variable {fmt}

theorem deserialize_serialize (h : fmt.Stored) (model : LinearRegressionModel F) :
    deserialize fmt (model.serialize fmt) = .ok model := by
  have hbits : ∀ x, (fmt.bits x).val < 256 ^ 8 := fun x => (fmt.bits x).isLt.trans_le (by norm_num)
  have h0 : deserializeAt (model.serialize fmt) 0 8 = .ok (fmt.bits model.slope).val :=
    deserializeAt_append [] _ (hbits _)
  have h8 : deserializeAt (model.serialize fmt) 8 8 = .ok (fmt.bits model.intercept).val := by
    have := deserializeAt_append (toBytes 8 (fmt.bits model.slope)) [] (hbits model.intercept)
    rwa [length_toBytes, List.append_nil] at this
  rw [deserialize, if_pos (by simp [serialize]), h0, ok_bind, h8, ok_bind, Fin.ofNat_val_eq_self,
    Fin.ofNat_val_eq_self, h, h]

end LinearRegressionModel

namespace SubModel

variable (fmt : DoubleFormat F)

def serialize (m : SubModel F) : List Byte :=
  m.model.serialize fmt ++
    (toBytes 8 m.capacity ++ (toBytes 4 m.ltable.serialize.length ++ m.ltable.serialize))

/-- The deserializing constructor; the leaf table is a new one. -/
def deserialize (raw : Fin kSynonymMax → TableEntry) (seria : List Byte) :
    Except Fault (SubModel F) :=
  if seria.length ≥ 16 + 8 + 4 then do
    let modelSeria ← substring seria 0 16
    let model ← LinearRegressionModel.deserialize fmt modelSeria
    let capacity ← deserializeAt seria 16 8
    let w ← deserializeAt seria 24 4
    let ltableSize := toInt32 w
    if (seria.length : ℤ) = (16 + 8 + 4 + ltableSize) % 2 ^ 64 then do
      let ltableSeria ← substring seria 28 ltableSize
      let ltable ← (LeafTable.construct raw).deserialize ltableSeria
      .ok ⟨model, ltable, capacity⟩
    else .error .badSerialization
  else .error .badSerialization

theorem length_serialize (m : SubModel F) :
    (m.serialize fmt).length = 28 + m.ltable.serialize.length := by
  simp only [serialize, LinearRegressionModel.serialize, List.length_append, length_toBytes]
  omega

def unlocked (m : SubModel F) : SubModel F := { m with ltable := { m.ltable with csLocks := [] } }

variable {fmt}

theorem deserialize_serialize (hfmt : fmt.Stored) {m : SubModel F} (hcap : m.capacity < 2 ^ 64)
    (h : (m.serialize fmt).length < 2 ^ 31) (raw : Fin kSynonymMax → TableEntry) :
    deserialize fmt raw (m.serialize fmt) = .ok m.unlocked := by
  have hlen := m.length_serialize fmt
  have hmodel : (m.model.serialize fmt).length = 16 := by simp [LinearRegressionModel.serialize]
  have h0 : substring (m.serialize fmt) 0 16 = .ok (m.model.serialize fmt) :=
    substring_append [] _ (by rw [hmodel])
  have h16 : deserializeAt (m.serialize fmt) 16 8 = .ok m.capacity := by
    have := deserializeAt_append (m.model.serialize fmt)
      (toBytes 4 m.ltable.serialize.length ++ m.ltable.serialize) (w := 8) (n := m.capacity)
      (by omega)
    rwa [hmodel] at this
  have hcut : m.serialize fmt = (m.model.serialize fmt ++ toBytes 8 m.capacity) ++
      (toBytes 4 m.ltable.serialize.length ++ m.ltable.serialize) := by
    rw [serialize, List.append_assoc]
  have h24 : deserializeAt (m.serialize fmt) 24 4 = .ok m.ltable.serialize.length := by
    have := deserializeAt_append (m.model.serialize fmt ++ toBytes 8 m.capacity) m.ltable.serialize
      (w := 4) (n := m.ltable.serialize.length) (by omega)
    rwa [← hcut, List.length_append, hmodel, length_toBytes] at this
  have hint : toInt32 m.ltable.serialize.length = m.ltable.serialize.length :=
    toInt32_of_lt (by omega)
  have h28 : substring (m.serialize fmt) 28 m.ltable.serialize.length = .ok m.ltable.serialize := by
    have := substring_append
      ((m.model.serialize fmt ++ toBytes 8 m.capacity) ++ toBytes 4 m.ltable.serialize.length) []
      (rfl : (m.ltable.serialize.length : ℤ) = _)
    rwa [List.append_nil, List.append_assoc _ (toBytes 4 _), ← hcut, List.length_append,
      List.length_append, hmodel, length_toBytes, length_toBytes] at this
  rw [deserialize, if_pos (by omega), h0, ok_bind, LinearRegressionModel.deserialize_serialize hfmt,
    ok_bind, h16, ok_bind, h24, ok_bind]
  simp only [hint, h28, ok_bind,
    LeafTable.deserialize_serialize (by omega : m.ltable.serialize.length < 2 ^ 31)]
  rw [if_pos (by omega)]
  rfl

end SubModel
end Rolex
