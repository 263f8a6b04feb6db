import Rolex.StringFormat

/-!
Strings that no `serialize` wrote. The sizes in them are compared with the whole string, a negative
table size wraps, and the size of an entry is not compared at all.
-/

namespace Rolex
open Bytes

variable {F V : Type} {N : ℕ} {fmt : DoubleFormat F} {seria : List Byte}

/-! ### Reads of one string -/

theorem deserializeAt_inside {off w : ℕ} (h : off + w ≤ seria.length) :
    deserializeAt seria off w = .ok (ofBytes ((seria.drop off).take w)) := by
  rw [deserializeAt, if_neg (by omega), if_pos h]

theorem deserializeAt_short {off w : ℕ} (h : seria.length < w) :
    deserializeAt seria off w = .error .badSerialization :=
  if_pos h

theorem deserializeAt_outside {off w : ℕ} (hw : w ≤ seria.length) (h : seria.length < off + w) :
    deserializeAt seria off w = .error .outOfBounds := by
  rw [deserializeAt, if_neg (by omega), if_neg (by omega)]

theorem deserializeWords_inside {n : ℕ} : ∀ {off : ℕ}, off + 8 * n ≤ seria.length →
    ∃ ws, deserializeWords seria n off = .ok ws := by
  induction n with
  | zero => exact fun {off} _ => ⟨[], rfl⟩
  | succ n ih =>
    intro off h
    obtain ⟨rest, hrest⟩ := ih (show off + 8 + 8 * n ≤ seria.length by omega)
    exact ⟨_, by rw [deserializeWords, deserializeAt_inside (by omega), ok_bind, hrest, ok_bind]⟩

theorem deserializeWords_short {n off : ℕ} (hn : 0 < n) (h : seria.length < 8) :
    deserializeWords seria n off = .error .badSerialization := by
  obtain ⟨n, rfl⟩ := Nat.exists_eq_succ_of_ne_zero hn.ne'
  rw [deserializeWords, deserializeAt_short h, error_bind]

theorem deserializeWords_outside {n : ℕ} (h8 : 8 ≤ seria.length) : ∀ {off : ℕ}, 0 < n →
    seria.length < off + 8 * n → deserializeWords seria n off = .error .outOfBounds := by
  induction n with
  | zero => exact fun hn => absurd hn (lt_irrefl 0)
  | succ n ih =>
    intro off _ h
    rw [deserializeWords]
    rcases Nat.lt_or_ge seria.length (off + 8) with hlt | hge
    · rw [deserializeAt_outside h8 hlt, error_bind]
    · rw [deserializeAt_inside hge, ok_bind, ih (by omega) (by omega), error_bind]

theorem substring_inside {off : ℕ} {n : ℤ} (h0 : 0 ≤ n) (h : off + n ≤ seria.length) :
    substring seria off n = .ok ((seria.drop off).take n.toNat) := by
  rw [substring, if_neg (by omega), if_pos (by omega)]

theorem substring_negative {off : ℕ} {n : ℤ} (h : n < 0) :
    substring seria off n = .error .badSerialization := if_pos h

theorem substring_outside {off : ℕ} {n : ℤ} (h0 : 0 ≤ n) (h : seria.length < off + n) :
    substring seria off n = .error .outOfBounds := by
  rw [substring, if_neg (by omega), if_neg (by omega)]

def sizeAt (seria : List Byte) (off : ℕ) : ℤ := toInt32 (ofBytes ((seria.drop off).take 4))

/-! ### Leaf tables -/

namespace LeafTable

/-- The `ASSERT`s of `deserialize`; the sum is 32-bit and unsigned. -/
def SeriaChecked (seria : List Byte) : Prop :=
  seria.length > 4 ∧ seria.length ≥ 4 + ((sizeAt seria 0 + kSynonymMax) % 2 ^ 32).toNat * 8

def seriaBytes (seria : List Byte) : ℕ := 4 + 8 * (sizeAt seria 0).toNat + 8 * kSynonymMax

def SeriaReads (seria : List Byte) : Prop := SeriaChecked seria ∧ seriaBytes seria ≤ seria.length

/-- The table size is negative, and with it the loops read behind the string. -/
def SeriaEscapes (seria : List Byte) : Prop :=
  SeriaChecked seria ∧ 8 ≤ seria.length ∧ seria.length < seriaBytes seria

theorem deserialize_eq (raw : Fin kSynonymMax → TableEntry) (h4 : seria.length > 4) :
    (construct raw).deserialize seria =
      if seria.length ≥ 4 + ((sizeAt seria 0 + kSynonymMax) % 2 ^ 32).toNat * 8 then do
        let words ← deserializeWords seria (sizeAt seria 0).toNat 4
        let synonyms ← deserializeWords seria kSynonymMax (4 + 8 * (sizeAt seria 0).toNat)
        .ok { construct raw with
          table := (construct raw).table ++ words.map TableEntry.ofVal
          synonymTable := fun i => TableEntry.ofVal (synonyms.getD i 0) }
      else .error .badSerialization := by
  rw [deserialize, if_pos ⟨h4, rfl⟩, deserializeAt_inside (by omega), ok_bind]
  rfl

theorem deserialize_cases (raw : Fin kSynonymMax → TableEntry) (seria : List Byte) :
    (SeriaReads seria → ∃ t, (construct raw).deserialize seria = .ok t) ∧
    (SeriaEscapes seria → (construct raw).deserialize seria = .error .outOfBounds) ∧
    (¬SeriaReads seria → ¬SeriaEscapes seria →
      (construct raw).deserialize seria = .error .badSerialization) := by
  have hmax : 0 < kSynonymMax := by norm_num
  refine ⟨fun ⟨⟨h4, hcheck⟩, hbytes⟩ => ?_, fun ⟨⟨h4, hcheck⟩, h8, hbytes⟩ => ?_,
    fun hreads hescapes => ?_⟩
  · rw [seriaBytes] at hbytes
    have hsize : 4 + 8 * (sizeAt seria 0).toNat ≤ seria.length :=
      (Nat.le_add_right _ _).trans hbytes
    obtain ⟨ws, hws⟩ := deserializeWords_inside hsize
    obtain ⟨vs, hvs⟩ := deserializeWords_inside hbytes
    exact ⟨_, by rw [deserialize_eq raw h4, if_pos hcheck, hws, ok_bind, hvs, ok_bind]⟩
  · rw [seriaBytes] at hbytes
    rw [deserialize_eq raw h4, if_pos hcheck]
    rcases Nat.lt_or_ge seria.length (4 + 8 * (sizeAt seria 0).toNat) with hlt | hge
    · rw [deserializeWords_outside h8 (by omega) hlt, error_bind]
    · obtain ⟨ws, hws⟩ := deserializeWords_inside hge
      rw [hws, ok_bind, deserializeWords_outside h8 hmax hbytes, error_bind]
  · rcases Nat.lt_or_ge 4 seria.length with h4 | h4
    · rw [deserialize_eq raw h4]
      split
      · rename_i hcheck
        have hbytes := not_le.mp fun hbytes => hreads ⟨⟨h4, hcheck⟩, hbytes⟩
        have hshort : seria.length < 8 := not_le.mp fun h8 => hescapes ⟨⟨h4, hcheck⟩, h8, hbytes⟩
        rcases Nat.eq_zero_or_pos (sizeAt seria 0).toNat with hzero | hpos
        · rw [hzero, deserializeWords, ok_bind, deserializeWords_short hmax hshort, error_bind]
        · rw [deserializeWords_short hpos hshort, error_bind]
      · rfl
    · rw [deserialize, if_neg fun h => absurd h.1 (by omega)]

end LeafTable

/-! ### Submodels -/

namespace SubModel

/-- The `ASSERT`s of the constructor. The size of the leaf table is then that of the rest. -/
def SeriaChecked (seria : List Byte) : Prop :=
  seria.length ≥ 28 ∧ (seria.length : ℤ) = 28 + sizeAt seria 24

def SeriaReads (seria : List Byte) : Prop :=
  SeriaChecked seria ∧ LeafTable.SeriaReads (seria.drop 28)

def SeriaEscapes (seria : List Byte) : Prop :=
  SeriaChecked seria ∧ LeafTable.SeriaEscapes (seria.drop 28)

theorem model_inside (fmt : DoubleFormat F) (h : seria.length ≥ 28) :
    ∃ model, substring seria 0 16 >>= LinearRegressionModel.deserialize fmt = .ok model := by
  have hlen : ((seria.drop 0).take (16 : ℤ).toNat).length = 16 := by
    rw [List.length_take, List.length_drop]
    omega
  rw [substring_inside (by norm_num) (by omega), ok_bind, LinearRegressionModel.deserialize,
    if_pos hlen, deserializeAt_inside (by omega), ok_bind, deserializeAt_inside (by omega), ok_bind]
  exact ⟨_, rfl⟩

theorem deserialize_eq (fmt : DoubleFormat F) (raw : Fin kSynonymMax → TableEntry)
    (h : seria.length ≥ 28) : ∃ model capacity, deserialize fmt raw seria =
      if (seria.length : ℤ) = (16 + 8 + 4 + sizeAt seria 24) % 2 ^ 64 then do
        let ltableSeria ← substring seria 28 (sizeAt seria 24)
        let ltable ← (LeafTable.construct raw).deserialize ltableSeria
        .ok ⟨model, ltable, capacity⟩
      else .error .badSerialization := by
  obtain ⟨model, hmodel⟩ := model_inside fmt h
  obtain ⟨modelSeria, hseria, hmodel⟩ := bind_eq_ok hmodel
  refine ⟨model, ofBytes ((seria.drop 16).take 8), ?_⟩
  rw [deserialize, if_pos h, hseria, ok_bind, hmodel, ok_bind, deserializeAt_inside (by omega),
    ok_bind, deserializeAt_inside (by omega), ok_bind]
  rfl

theorem sizeAt_lt (seria : List Byte) (off : ℕ) : sizeAt seria off < 2 ^ 31 := by
  rw [sizeAt, toInt32]
  omega

theorem sizeAt_of_checked (h : (seria.length : ℤ) = (28 + sizeAt seria 24) % 2 ^ 64)
    (h0 : 0 ≤ sizeAt seria 24) : (seria.length : ℤ) = 28 + sizeAt seria 24 := by
  have hlt := sizeAt_lt seria 24
  omega

theorem deserialize_cases (fmt : DoubleFormat F) (raw : Fin kSynonymMax → TableEntry)
    (seria : List Byte) : (SeriaReads seria → ∃ m, deserialize fmt raw seria = .ok m) ∧
    (SeriaEscapes seria → deserialize fmt raw seria = .error .outOfBounds) ∧
    (¬SeriaReads seria → ¬SeriaEscapes seria →
      deserialize fmt raw seria = .error .badSerialization) := by
  rcases Nat.lt_or_ge seria.length 28 with hlt | h
  · have herr : deserialize fmt raw seria = .error .badSerialization := if_neg (by omega)
    exact ⟨fun hreads => absurd hreads.1.1 (by omega),
      fun hescapes => absurd hescapes.1.1 (by omega), fun _ _ => herr⟩
  · obtain ⟨model, capacity, heq⟩ := deserialize_eq fmt raw h
    obtain ⟨hreads, hescapes, hrest⟩ := LeafTable.deserialize_cases raw (seria.drop 28)
    have hsub : (seria.length : ℤ) = 28 + sizeAt seria 24 →
        substring seria 28 (sizeAt seria 24) = .ok (seria.drop 28) := fun hsize => by
      rw [substring_inside (by omega) (by omega),
        List.take_of_length_le (by rw [List.length_drop]; omega)]
    have hchecked : (seria.length : ℤ) = 28 + sizeAt seria 24 →
        (seria.length : ℤ) = (16 + 8 + 4 + sizeAt seria 24) % 2 ^ 64 := fun hsize => by
      have hlt := sizeAt_lt seria 24
      omega
    rw [heq]
    refine ⟨fun hr => ?_, fun he => ?_, fun hnr hne => ?_⟩
    · obtain ⟨⟨_, hsize⟩, hr⟩ := hr
      obtain ⟨t, ht⟩ := hreads hr
      exact ⟨_, by rw [if_pos (hchecked hsize), hsub hsize, ok_bind, ht, ok_bind]⟩
    · obtain ⟨⟨_, hsize⟩, he⟩ := he
      rw [if_pos (hchecked hsize), hsub hsize, ok_bind, hescapes he, error_bind]
    · split
      · rename_i hassert
        rcases lt_or_ge (sizeAt seria 24) 0 with hneg | hpos
        · rw [substring_negative hneg, error_bind]
        · have hsize := sizeAt_of_checked (hassert.trans (by norm_num)) hpos
          rw [hsub hsize, ok_bind,
            hrest (fun hr => hnr ⟨⟨h, hsize⟩, hr⟩) (fun he => hne ⟨⟨h, hsize⟩, he⟩), error_bind]
      · rfl

end SubModel

/-! ### Entries -/

def entryModel (seria : List Byte) (cur : ℕ) : List Byte :=
  (seria.drop (cur + 12)).take (sizeAt seria (cur + 8)).toNat

def EntryReads (seria : List Byte) (cur : ℕ) : Prop :=
  cur + 12 ≤ seria.length ∧ 0 ≤ sizeAt seria (cur + 8) ∧
    cur + 12 + sizeAt seria (cur + 8) ≤ seria.length ∧
    SubModel.SeriaReads (entryModel seria cur)

/-- The string ends inside the key or the size of the entry, or inside its submodel, or the loops
over the leaf table leave the submodel. -/
def EntryEscapes (seria : List Byte) (cur : ℕ) : Prop :=
  8 ≤ seria.length ∧ (seria.length < cur + 12 ∨ 0 ≤ sizeAt seria (cur + 8) ∧
    (seria.length < cur + 12 + sizeAt seria (cur + 8) ∨
    SubModel.SeriaEscapes (entryModel seria cur)))

theorem deserializeEntry_eq (fmt : DoubleFormat F) (raw : Fin kSynonymMax → TableEntry) {cur : ℕ}
    (h : cur + 12 ≤ seria.length) : ∃ key, deserializeEntry fmt raw seria cur =
      (substring seria (cur + 12) (sizeAt seria (cur + 8)) >>= fun mSeria =>
        SubModel.deserialize fmt raw mSeria >>= fun model =>
          .ok (key, model, (sizeAt seria (cur + 8)).toNat)) := by
  refine ⟨Fin.ofNat _ (ofBytes ((seria.drop cur).take 8)), ?_⟩
  rw [deserializeEntry, deserializeAt_inside (by omega), ok_bind, deserializeAt_inside (by omega),
    ok_bind]
  rfl

theorem deserializeEntry_cases (fmt : DoubleFormat F) (raw : Fin kSynonymMax → TableEntry)
    (seria : List Byte) {cur : ℕ} (hcur : cur < seria.length) :
    (EntryReads seria cur →
      ∃ key m, deserializeEntry fmt raw seria cur = .ok (key, m, (sizeAt seria (cur + 8)).toNat)) ∧
    (EntryEscapes seria cur → deserializeEntry fmt raw seria cur = .error .outOfBounds) ∧
    (¬EntryReads seria cur → ¬EntryEscapes seria cur →
      deserializeEntry fmt raw seria cur = .error .badSerialization) := by
  rcases Nat.lt_or_ge seria.length (cur + 12) with hlt | h
  · refine ⟨fun hreads => absurd hreads.1 (by omega), fun hescapes => ?_, fun _ hescapes => ?_⟩
    · have h8 := hescapes.1
      rw [deserializeEntry]
      rcases Nat.lt_or_ge seria.length (cur + 8) with hkey | hkey
      · rw [deserializeAt_outside h8 hkey, error_bind]
      · rw [deserializeAt_inside hkey, ok_bind, deserializeAt_outside (by omega) (by omega),
          error_bind]
    · have h8 : seria.length < 8 := not_le.mp fun h8 => hescapes ⟨h8, Or.inl hlt⟩
      rw [deserializeEntry, deserializeAt_short h8, error_bind]
  · obtain ⟨key, heq⟩ := deserializeEntry_eq fmt raw h
    obtain ⟨hreads, hescapes, hrest⟩ := SubModel.deserialize_cases fmt raw (entryModel seria cur)
    have hsub : 0 ≤ sizeAt seria (cur + 8) → cur + 12 + sizeAt seria (cur + 8) ≤ seria.length →
        substring seria (cur + 12) (sizeAt seria (cur + 8)) = .ok (entryModel seria cur) :=
        fun h0 hin =>
      substring_inside h0 (by rw [Nat.cast_add]; exact hin)
    rw [heq]
    refine ⟨fun hr => ?_, fun he => ?_, fun hnr hne => ?_⟩
    · obtain ⟨_, h0, hin, hr⟩ := hr
      obtain ⟨m, hm⟩ := hreads hr
      exact ⟨key, m, by rw [hsub h0 hin, ok_bind, hm, ok_bind]⟩
    · obtain ⟨h0, hcase⟩ := he.2.resolve_left (by omega)
      rcases lt_or_ge (seria.length : ℤ) (cur + 12 + sizeAt seria (cur + 8)) with hout | hin
      · rw [substring_outside h0 (by rw [Nat.cast_add]; exact hout), error_bind]
      · rw [hsub h0 hin, ok_bind, hescapes (hcase.resolve_left (not_lt.mpr hin)), error_bind]
    · rcases lt_or_ge (sizeAt seria (cur + 8)) 0 with hneg | h0
      · rw [substring_negative hneg, error_bind]
      · have hin : cur + 12 + sizeAt seria (cur + 8) ≤ seria.length := not_lt.mp fun hout =>
          hne ⟨by omega, Or.inr ⟨h0, Or.inl hout⟩⟩
        rw [hsub h0 hin, ok_bind, hrest (fun hr => hnr ⟨h, h0, hin, hr⟩)
          (fun he => hne ⟨by omega, Or.inr ⟨h0, Or.inr he⟩⟩), error_bind]

/-! ### The loop -/

def Passes (seria : List Byte) (cur next : ℕ) : Prop :=
  cur < seria.length ∧ EntryReads seria cur ∧ next = cur + 12 + (sizeAt seria (cur + 8)).toNat

/-- No entry that the loop reaches from `start` on leaves the string. -/
def StaysInside (seria : List Byte) (start : ℕ) : Prop :=
  ∀ cur, Relation.ReflTransGen (Passes seria) start cur → cur < seria.length →
    ¬EntryEscapes seria cur

theorem staysInside_iff {start : ℕ} (h : start < seria.length) :
    StaysInside seria start ↔ ¬EntryEscapes seria start ∧
      (EntryReads seria start →
        StaysInside seria (start + 12 + (sizeAt seria (start + 8)).toNat)) := by
  constructor
  · exact fun hin => ⟨hin start .refl h,
      fun hreads cur hreach => hin cur (hreach.head ⟨h, hreads, rfl⟩)⟩
  · rintro ⟨hfirst, hnext⟩ cur hreach hcur
    rcases hreach.cases_head with rfl | ⟨next, ⟨_, hreads, heq⟩, hrest⟩
    · exact hfirst
    · rw [heq] at hrest
      exact hnext hreads cur hrest hcur

theorem not_escapes_of_reads {cur : ℕ} (h : EntryReads seria cur) : ¬EntryEscapes seria cur := by
  obtain ⟨hin, h0, hend, ⟨_, ⟨_, htable⟩⟩⟩ := h
  rintro ⟨_, hout | ⟨_, hout | ⟨_, _, _, hescape⟩⟩⟩
  · omega
  · omega
  · exact absurd hescape (not_lt.mpr htable)

theorem deserializeLoop_iff (fmt : DoubleFormat F) (raw : ℕ → Fin kSynonymMax → TableEntry)
    {n : ℕ} : ∀ {cur : ℕ} {keys : List Key} {models : List (SubModel F)}, seria.length ≤ cur + n →
      (deserializeLoop fmt raw seria cur keys models ≠ .error .outOfBounds ↔
        StaysInside seria cur) := by
  induction n with
  | zero =>
    intro cur keys models hn
    rw [deserializeLoop, if_neg (by omega)]
    refine iff_of_true (by simp) fun c hreach hc => ?_
    rcases hreach.cases_head with rfl | ⟨next, ⟨hlt, _⟩, _⟩ <;> omega
  | succ n ih =>
    intro cur keys models hn
    rcases Nat.lt_or_ge cur seria.length with hcur | hcur
    · obtain ⟨hreads, hescapes, hrest⟩ := deserializeEntry_cases fmt (raw models.length) seria hcur
      rw [deserializeLoop, if_pos hcur, staysInside_iff hcur]
      by_cases hr : EntryReads seria cur
      · obtain ⟨key, m, hok⟩ := hreads hr
        rw [hok, ok_bind, ih (by omega)]
        dsimp only
        exact ⟨fun hin => ⟨not_escapes_of_reads hr, fun _ => hin⟩, fun hin => hin.2 hr⟩
      · by_cases he : EntryEscapes seria cur
        · rw [hescapes he, error_bind]
          exact iff_of_false (fun hne => hne rfl) fun hin => hin.1 he
        · rw [hrest hr he, error_bind]
          exact iff_of_true (by simp) ⟨he, fun hr' => absurd hr' hr⟩
    · rw [deserializeLoop, if_neg (by omega)]
      refine iff_of_true (by simp) fun c hreach hc => ?_
      rcases hreach.cases_head with rfl | ⟨next, ⟨hlt, _⟩, _⟩ <;> omega

def SeriaChecked (seria : List Byte) : Prop :=
  seria.length > 4 ∧ (seria.length : ℤ) = (4 + sizeAt seria 0) % 2 ^ 64

theorem deserializeString_iff (fmt : DoubleFormat F) (raw : ℕ → Fin kSynonymMax → TableEntry)
    (seria : List Byte) : deserializeString fmt raw seria ≠ .error .outOfBounds ↔
    (SeriaChecked seria → StaysInside seria 4) := by
  rw [deserializeString]
  split
  · rename_i h4
    have hread : deserializeAt seria 0 4 = .ok (ofBytes ((seria.drop 0).take 4)) :=
      deserializeAt_inside (by omega)
    rw [hread, ok_bind, ← sizeAt]
    by_cases hsize : (seria.length : ℤ) = (4 + sizeAt seria 0) % 2 ^ 64
    · rw [if_pos hsize, deserializeLoop_iff (n := seria.length) fmt raw (Nat.le_add_left _ _)]
      exact ⟨fun hin _ => hin, fun hin => hin ⟨h4, hsize⟩⟩
    · rw [if_neg hsize]
      exact iff_of_true (by simp) fun hc => absurd hc.2 hsize
  · rename_i h4
    exact iff_of_true (by simp) fun hc => absurd hc.1 h4

theorem bind_ok_ne_error {α β : Type} {x : Except Fault α} {g : α → β} {f : Fault} :
    (x >>= fun a => .ok (g a)) ≠ .error f ↔ x ≠ .error f := by
  cases x with
  | ok a => simp
  | error e => simp

/-- Both constructors end with a value, an `ASSERT` or an exception, and read inside the string,
exactly for the strings whose entries stay inside. -/
theorem malformed_string_iff (fmt : DoubleFormat F) (RM : RemoteMemory V N)
    (raw : ℕ → Fin kSynonymMax → TableEntry) (seria : List Byte) :
    (RolexIndex.ofString fmt RM raw seria ≠ .error .outOfBounds ↔
      (SeriaChecked seria → StaysInside seria 4)) ∧
    (LearnedCache.ofString fmt raw seria ≠ .error .outOfBounds ↔
      (SeriaChecked seria → StaysInside seria 4)) := by
  rw [RolexIndex.ofString, LearnedCache.ofString, bind_ok_ne_error, bind_ok_ne_error,
    deserializeString_iff, and_self]

/-- Twelve bytes: the size of the rest and one key. The size of a submodel is read behind them. -/
theorem malformed_string_escapes :
    LearnedCache.ofString binary64 noEntries [8, 0, 0, 0, 1, 0, 0, 0, 0, 0, 0, 0] =
    .error .outOfBounds ∧
    RolexIndex.ofString binary64 emptyStored.RM noEntries [8, 0, 0, 0, 1, 0, 0, 0, 0, 0, 0, 0] =
      .error .outOfBounds := by
  have hread : deserializeString binary64 noEntries [8, 0, 0, 0, 1, 0, 0, 0, 0, 0, 0, 0] =
      .error .outOfBounds := by
    have hentry : deserializeEntry binary64 (noEntries 0) [8, 0, 0, 0, 1, 0, 0, 0, 0, 0, 0, 0] 4 =
        .error .outOfBounds := by rfl
    have hsize : deserializeAt [8, 0, 0, 0, 1, 0, 0, 0, 0, 0, 0, 0] 0 4 = .ok 8 := by rfl
    rw [deserializeString, if_pos (by decide), hsize, ok_bind, if_pos (by decide +kernel),
      deserializeLoop, if_pos (by decide)]
    change deserializeEntry binary64 (noEntries 0) _ 4 >>= _ = _
    rw [hentry, error_bind]
  constructor
  · rw [LearnedCache.ofString, hread, error_bind]
  · rw [RolexIndex.ofString, hread, error_bind]

end Rolex
