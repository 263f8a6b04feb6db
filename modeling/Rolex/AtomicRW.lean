import Rolex.Foundations.Histories
import Rolex.Foundations.Widths

/-!
The objects of `wrapper_type.hh`, which one writer changes while readers copy them without a lock,
and `AtomicRW::atomic_read`. A copy is taken from the front to the back, as `OrderedRWOp` does; the
two sequence numbers stand before and behind the payload. A load or a store is one step, so a word
that holds several pieces is read in steps that nothing comes between.
-/

namespace Rolex
open Histories

def kInvalidSeq : Fin (2 ^ 32) := 0

structure WrappedType (α : Type) (n : ℕ) where
  seq : Fin (2 ^ 32)
  payload : Fin n → α
  seqCheck : Fin (2 ^ 32)

namespace WrappedType

variable {α : Type} {n : ℕ}

def construct (p : Fin n → α) : WrappedType α n := ⟨kInvalidSeq + 1, p, kInvalidSeq + 1⟩

def consistent (w : WrappedType α n) : Bool := decide (w.seq = w.seqCheck ∧ w.seq ≠ kInvalidSeq)

end WrappedType

/-- Where the writer is; `ret` is what `begin_write` returns. -/
inductive WritePhase where
  | outside
  | beginning (ret : Fin (2 ^ 32)) -- `seq_check` is invalid, `seq` is not yet
  | inside (ret : Fin (2 ^ 32))
  | ending -- `seq` is the next number, `seq_check` is not yet
  deriving DecidableEq, Repr

structure AtomicRead (α : Type) (n : ℕ) where
  dest : WrappedType α n
  pos : ℕ
  retryCnt : ℕ

structure RWState (ι α : Type) (n : ℕ) where
  obj : WrappedType α n
  writer : WritePhase
  readers : ι → AtomicRead α n

inductive RWMove (ι α : Type) (n : ℕ) where
  | mark
  | store (j : Fin n) (a : α)
  | read (i : ι)

/-- `publish` is the store to `seq` in `done_write`, `begin` the first load of a copy, `done` the
end of a call. -/
inductive RWEvent (ι α : Type) (n : ℕ) where
  | quiet
  | publish (p : Fin n → α)
  | begin (i : ι)
  | done (i : ι) (p : Fin n → α)

section Steps

variable {ι α : Type} {n : ℕ} [DecidableEq ι]

/-- The next load of a copy, or the test behind the last one, after which the caller reads again. -/
def AtomicRead.next (r : AtomicRead α n) (i : ι) (obj : WrappedType α n) :
    RWEvent ι α n × AtomicRead α n :=
  match r.pos with
  | 0 => (.begin i, ⟨{ r.dest with seq := obj.seq }, 1, 0⟩)
  | k + 1 =>
    if h : k < n then
      (.quiet, { r with
        dest :=
          { r.dest with payload := Function.update r.dest.payload ⟨k, h⟩ (obj.payload ⟨k, h⟩) }
        pos := k + 2 })
    else if k = n then (.quiet,
      { r with dest := { r.dest with seqCheck := obj.seqCheck }, pos := k + 2 })
    else if r.dest.consistent then (.done i r.dest.payload, { r with pos := 0 })
    else (.quiet, { r with pos := 0, retryCnt := r.retryCnt + 1 })

def RWState.next (s : RWState ι α n) : RWMove ι α n → Option (RWEvent ι α n × RWState ι α n)
  | .mark => some <|
    match s.writer with
    | .outside => (.quiet,
        { s with
          obj := { s.obj with seqCheck := kInvalidSeq }
          writer := .beginning s.obj.seqCheck })
    | .beginning ret => (.quiet,
        { s with obj := { s.obj with seq := kInvalidSeq }, writer := .inside ret })
    | .inside ret => (.publish s.obj.payload,
        { s with obj := { s.obj with seq := ret + 1 }, writer := .ending })
    | .ending => (.quiet,
        { s with obj := { s.obj with seqCheck := s.obj.seq }, writer := .outside })
  | .store j a =>
    match s.writer with
    | .inside _ => some (.quiet,
        { s with obj := { s.obj with payload := Function.update s.obj.payload j a } })
    | _ => none
  | .read i =>
    let res := (s.readers i).next i s.obj
    some (res.1, { s with readers := Function.update s.readers i res.2 })

def RWState.Step (s : RWState ι α n) (e : RWEvent ι α n) (s' : RWState ι α n) : Prop :=
  ∃ m, s.next m = some (e, s')

def RWState.start (p : Fin n → α) (dest : ι → WrappedType α n) : RWState ι α n :=
  ⟨.construct p, .outside, fun i => ⟨dest i, 0, 0⟩⟩

end Steps

/-! ### The writer -/

section History

variable {ι α : Type} {n : ℕ}

def RWEvent.published : RWEvent ι α n → Option (Fin n → α)
  | publish p => some p
  | _ => none

def published (es : List (RWEvent ι α n)) : List (Fin n → α) := es.filterMap RWEvent.published

def latest (p₀ : Fin n → α) (es : List (RWEvent ι α n)) : Fin n → α := (published es).getLastD p₀

def seqAfter (m : ℕ) : Fin (2 ^ 32) := Fin.ofNat _ (m + 1)

theorem seqAfter_succ (m : ℕ) : seqAfter m + 1 = seqAfter (m + 1) := by
  rw [seqAfter, seqAfter, Fin.ext_iff, Fin.val_add]
  simp only [Fin.ofNat_eq_cast, Fin.val_natCast, Fin.val_one']
  omega

theorem eq_zero_of_seqAfter {m d : ℕ} (h : seqAfter m = seqAfter (m + d))
    (hd : d < 2 ^ 32) : d = 0 := by
  have h := congrArg Fin.val h
  rw [seqAfter, seqAfter] at h
  simp only [Fin.ofNat_eq_cast, Fin.val_natCast] at h
  omega

theorem published_append (es es' : List (RWEvent ι α n)) :
    published (es ++ es') = published es ++ published es' :=
  List.filterMap_append

theorem published_concat_of_none {es : List (RWEvent ι α n)} {e : RWEvent ι α n}
    (he : e.published = none) : published (es ++ [e]) = published es := by
  rw [published_append, published, published, List.filterMap_cons_none he, List.filterMap_nil,
    List.append_nil]

theorem latest_append (p₀ : Fin n → α) (es es' : List (RWEvent ι α n)) (h : published es' = []) :
    latest p₀ (es ++ es') = latest p₀ es := by
  rw [latest, published_append, h, List.append_nil, latest]

/-- What the object is in each phase of the writer after the writes `es`. -/
inductive Written (p₀ : Fin n → α) (es : List (RWEvent ι α n)) :
    WritePhase → WrappedType α n → Prop where
  | outside : Written p₀ es .outside ⟨seqAfter (published es).length, latest p₀ es,
      seqAfter (published es).length⟩
  | beginning : Written p₀ es (.beginning (seqAfter (published es).length))
      ⟨seqAfter (published es).length, latest p₀ es, kInvalidSeq⟩
  | inside (p : Fin n → α) :
      Written p₀ es (.inside (seqAfter (published es).length)) ⟨kInvalidSeq, p, kInvalidSeq⟩
  | ending : Written p₀ es .ending ⟨seqAfter (published es).length, latest p₀ es, kInvalidSeq⟩

variable {p₀ : Fin n → α} {es es₁ es₂ : List (RWEvent ι α n)} {e : RWEvent ι α n}
  {writer writer' : WritePhase} {obj : WrappedType α n}

theorem Written.of_none (h : Written p₀ es writer obj) (he : e.published = none) :
    Written p₀ (es ++ [e]) writer obj := by
  have hlatest : latest p₀ (es ++ [e]) = latest p₀ es := by
    rw [latest, published_concat_of_none he, latest]
  cases h with
  | outside =>
    rw [← published_concat_of_none he, ← hlatest]
    exact .outside
  | beginning =>
    rw [← published_concat_of_none he, ← hlatest]
    exact .beginning
  | inside p =>
    rw [← published_concat_of_none he]
    exact .inside p
  | ending =>
    rw [← published_concat_of_none he, ← hlatest]
    exact .ending

theorem Written.payload (h : Written p₀ es writer obj) (hout : ∀ ret, writer ≠ .inside ret) :
    obj.payload = latest p₀ es := by
  cases h with
  | outside | beginning | ending => rfl
  | inside => exact absurd rfl (hout _)

theorem Written.seq (h : Written p₀ es writer obj) :
    obj.seq = kInvalidSeq ∨ obj.seq = seqAfter (published es).length := by
  cases h with
  | outside | beginning | ending => exact Or.inr rfl
  | inside => exact Or.inl rfl

theorem Written.seqCheck (h : Written p₀ es writer obj) :
    obj.seqCheck = kInvalidSeq ∨ writer = .outside ∧
    obj.seqCheck = seqAfter (published es).length := by
  cases h with
  | outside => exact Or.inr ⟨rfl, rfl⟩
  | beginning | inside | ending => exact Or.inl rfl

/-! ### A copy -/

/-- A copy that began after `es₁`, when `es₂` has happened since. While nothing is written, the
pieces are those of the payload written last. -/
structure Copy (p₀ : Fin n → α) (es₁ es₂ : List (RWEvent ι α n)) (writer : WritePhase)
    (r : AtomicRead α n) : Prop where
  pos : 0 < r.pos ∧ r.pos ≤ n + 2
  retryCnt : r.retryCnt = 0
  seq : r.dest.seq = kInvalidSeq ∨ r.dest.seq = seqAfter (published es₁).length
  payload : published es₂ = [] → (∀ ret, writer ≠ .inside ret) → ∀ j : Fin n, j.val + 1 < r.pos →
    r.dest.payload j = latest p₀ es₁ j
  seqCheck : r.pos = n + 2 → r.dest.seqCheck = kInvalidSeq ∨ ∃ d ≤ (published es₂).length,
    r.dest.seqCheck = seqAfter ((published es₁).length + d) ∧
    (d = 0 → r.dest.payload = latest p₀ es₁)

variable {r : AtomicRead α n}

theorem Copy.others (h : Copy p₀ es₁ es₂ writer r)
    (hwrites : (∃ ret, writer = .inside ret) → e.published ≠ none ∨ ∃ ret, writer' = .inside ret) :
    Copy p₀ es₁ (es₂ ++ [e]) writer' r := by
  refine ⟨h.pos, h.retryCnt, h.seq, fun hnone hout => ?_, fun hpos => ?_⟩
  · rw [published_append] at hnone
    obtain ⟨hnone, he⟩ := List.append_eq_nil_iff.mp hnone
    refine h.payload hnone fun ret hin => ?_
    rcases hwrites ⟨ret, hin⟩ with hpub | ⟨ret', hin'⟩
    · obtain ⟨p, hp⟩ := Option.ne_none_iff_exists'.mp hpub
      rw [published, List.filterMap_cons_some hp] at he
      cases he
    · exact hout ret' hin'
  · rcases h.seqCheck hpos with hinvalid | ⟨d, hd, hcheck⟩
    · exact Or.inl hinvalid
    · refine Or.inr ⟨d, hd.trans ?_, hcheck⟩
      rw [published_append, List.length_append]
      exact Nat.le_add_right _ _

theorem Copy.consistent (h : Copy p₀ es₁ es₂ writer r) (hpos : r.pos = n + 2)
    (hcons : r.dest.consistent = true) (hfew : (published es₂).length < 2 ^ 32) :
    r.dest.payload = latest p₀ es₁ := by
  obtain ⟨heq, hne⟩ := of_decide_eq_true hcons
  have hseq := h.seq.resolve_left hne
  obtain ⟨d, hd, hcheck, hpayload⟩ := (h.seqCheck hpos).resolve_left (heq ▸ hne)
  exact hpayload (eq_zero_of_seqAfter (hseq.symm.trans (heq.trans hcheck)) (hd.trans_lt hfew))

/-! ### Steps -/

variable {i : ι}

theorem AtomicRead.next_begin (hpos : r.pos = 0) (i : ι) (hw : Written p₀ es writer obj) :
    (r.next i obj).1 = .begin i ∧ Copy p₀ es [] writer (r.next i obj).2 := by
  rw [next, hpos]
  exact ⟨rfl, ⟨Nat.one_pos, Nat.le_add_left _ _⟩, rfl, hw.seq, fun _ _ j hj => absurd hj (by simp),
    fun h => by simp at h⟩

theorem Copy.next (h : Copy p₀ es₁ es₂ writer r)
    (hw : Written p₀ (es₁ ++ .begin i :: es₂) writer obj) :
    ((r.next i obj).1 = .quiet ∧ Copy p₀ es₁ (es₂ ++ [.quiet]) writer (r.next i obj).2) ∨
      (r.next i obj).2.pos = 0 ∧ (r.next i obj).2.retryCnt ≤ 1 ∧ ((r.next i obj).1 = .quiet ∨
        r.pos = n + 2 ∧ r.dest.consistent = true ∧ (r.next i obj).1 = .done i r.dest.payload) := by
  obtain ⟨k, hk⟩ := Nat.exists_eq_add_one_of_ne_zero h.pos.1.ne'
  have hle := h.pos.2
  have hquiet : published (es₂ ++ [RWEvent.quiet]) = published es₂ :=
    published_concat_of_none (ι := ι) rfl
  have hnow : published es₂ = [] → (∀ ret, writer ≠ .inside ret) → obj.payload = latest p₀ es₁ :=
    fun hnone hout => by
    rw [hw.payload hout, latest_append p₀ es₁ (.begin i :: es₂) hnone]
  rw [AtomicRead.next, hk]
  dsimp only
  by_cases hlt : k < n
  · rw [dif_pos hlt]
    refine Or.inl ⟨rfl, ⟨Nat.succ_pos _, (by dsimp only; omega)⟩, h.retryCnt, h.seq,
      fun hnone hout j hj => ?_, fun hpos => ?_⟩
    · rw [hquiet] at hnone
      dsimp only at hj ⊢
      by_cases hjk : j = ⟨k, hlt⟩
      · rw [hjk, Function.update_self, hnow hnone hout]
      · rw [Function.update_of_ne hjk]
        refine h.payload hnone hout j ?_
        have hne : j.val ≠ k := fun heq => hjk (Fin.ext heq)
        omega
    · dsimp only at hpos
      omega
  · rw [dif_neg hlt]
    by_cases hkn : k = n
    · rw [if_pos hkn]
      refine Or.inl ⟨rfl, ⟨Nat.succ_pos _, (by dsimp only; omega)⟩, h.retryCnt, h.seq,
        fun hnone hout j _ => ?_, fun _ => ?_⟩
      · rw [hquiet] at hnone
        exact h.payload hnone hout j (by omega)
      · rw [hquiet]
        refine hw.seqCheck.imp id fun ⟨hout, hcheck⟩ =>
          ⟨(published es₂).length, le_rfl, ?_, fun hzero => ?_⟩
        · rw [hcheck, published_append, List.length_append]
          rfl
        · funext j
          exact h.payload (List.length_eq_zero_iff.mp hzero)
            (fun ret heq => by rw [hout] at heq; cases heq) j (by omega)
    · rw [if_neg hkn]
      have hpos : r.pos = n + 2 := by omega
      right
      by_cases hcons : r.dest.consistent = true
      · rw [if_pos hcons]
        exact ⟨rfl, by rw [h.retryCnt]; exact zero_le_one, Or.inr ⟨hk ▸ hpos, hcons, rfl⟩⟩
      · rw [if_neg hcons]
        exact ⟨rfl, by dsimp only; rw [h.retryCnt], Or.inl rfl⟩

structure RWState.Sound (p₀ : Fin n → α) (es : List (RWEvent ι α n))
    (s : RWState ι α n) : Prop where
  written : Written p₀ es s.writer s.obj
  readers : ∀ i, (s.readers i).pos = 0 ∧ (s.readers i).retryCnt ≤ 1 ∨
    ∃ es₁ es₂, es = es₁ ++ .begin i :: es₂ ∧ .begin i ∉ es₂ ∧ Copy p₀ es₁ es₂ s.writer (s.readers i)

variable {s s' : RWState ι α n}

theorem RWState.start_sound (p₀ : Fin n → α) (dest : ι → WrappedType α n) :
    (RWState.start p₀ dest).Sound p₀ [] :=
  ⟨.outside, fun _ => Or.inl ⟨rfl, Nat.zero_le _⟩⟩

variable [DecidableEq ι]

theorem RWState.Sound.writes (h : s.Sound p₀ es) {m : RWMove ι α n} (hm : s.next m = some (e, s'))
    (hread : ∀ i, m ≠ .read i) :
    s'.readers = s.readers ∧ Written p₀ (es ++ [e]) s'.writer s'.obj ∧ (∀ i, e ≠ .begin i) ∧
      (∀ i p, e ≠ .done i p) ∧
      ((∃ ret, s.writer = .inside ret) → e.published ≠ none ∨ ∃ ret, s'.writer = .inside ret) := by
  have hw := h.written
  obtain ⟨obj, writer, readers⟩ := s
  dsimp only at hw
  cases m with
  | mark =>
    cases hw with
    | outside =>
      obtain ⟨rfl, rfl⟩ := Prod.mk.inj (Option.some.inj hm)
      exact ⟨rfl, .of_none .beginning rfl, (fun _ he => by cases he), (fun _ _ he => by cases he),
        fun ⟨_, h⟩ => by cases h⟩
    | beginning =>
      obtain ⟨rfl, rfl⟩ := Prod.mk.inj (Option.some.inj hm)
      exact ⟨rfl, .of_none (.inside _) rfl, (fun _ he => by cases he), (fun _ _ he => by cases he),
        fun ⟨_, h⟩ => by cases h⟩
    | inside p =>
      obtain ⟨rfl, rfl⟩ := Prod.mk.inj (Option.some.inj hm)
      refine ⟨rfl, ?_, (fun _ he => by cases he), (fun _ _ he => by cases he),
        fun _ => Or.inl (by simp [RWEvent.published])⟩
      have hpub : published (es ++ [RWEvent.publish p]) = published es ++ [p] := published_append ..
      have hseq : seqAfter (published es).length + 1 =
          seqAfter (published (es ++ [RWEvent.publish p])).length := by
        rw [hpub, List.length_append, seqAfter_succ]
        rfl
      have hlatest : latest p₀ (es ++ [RWEvent.publish p]) = p := by
        rw [latest, hpub, List.getLastD_concat]
      have hend : Written p₀ (es ++ [RWEvent.publish p]) .ending _ := .ending
      rwa [← hseq, hlatest] at hend
    | ending =>
      obtain ⟨rfl, rfl⟩ := Prod.mk.inj (Option.some.inj hm)
      exact ⟨rfl, .of_none .outside rfl, (fun _ he => by cases he), (fun _ _ he => by cases he),
        fun ⟨_, h⟩ => by cases h⟩
  | store j a =>
    cases hw with
    | inside p =>
      obtain ⟨rfl, rfl⟩ := Prod.mk.inj (Option.some.inj hm)
      exact ⟨rfl, .of_none (.inside _) rfl, (fun _ he => by cases he), (fun _ _ he => by cases he),
        fun ⟨ret, _⟩ => Or.inr ⟨_, rfl⟩⟩
    | outside | beginning | ending => cases hm
  | read i => exact absurd rfl (hread i)

omit [DecidableEq ι] in
theorem RWState.Sound.reader (h : s.Sound p₀ es) {i : ι} (hne : e ≠ .begin i)
    (hwrites : (∃ ret, s.writer = .inside ret) → e.published ≠ none ∨
      ∃ ret, writer' = .inside ret) :
    (s.readers i).pos = 0 ∧ (s.readers i).retryCnt ≤ 1 ∨
      ∃ es₁ es₂, es ++ [e] = es₁ ++ .begin i :: es₂ ∧ .begin i ∉ es₂ ∧
      Copy p₀ es₁ es₂ writer' (s.readers i) := by
  refine (h.readers i).imp id fun ⟨es₁, es₂, heq, hnot, hcopy⟩ =>
    ⟨es₁, es₂ ++ [e], ?_, fun hmem => ?_, hcopy.others hwrites⟩
  · rw [heq, List.append_assoc, List.cons_append]
  · rcases List.mem_append.mp hmem with hmem | hmem
    · exact hnot hmem
    · exact hne (List.mem_singleton.mp hmem).symm

omit [DecidableEq ι] in
theorem RWState.Sound.reads (h : s.Sound p₀ es) (i : ι) {r' : AtomicRead α n}
    (hr : (s.readers i).next i s.obj = (e, r')) : e.published = none ∧ (∀ j, j ≠ i → e ≠ .begin j) ∧
      (r'.pos = 0 ∧ r'.retryCnt ≤ 1 ∨
        ∃ es₁ es₂, es ++ [e] = es₁ ++ .begin i :: es₂ ∧ .begin i ∉ es₂ ∧
        Copy p₀ es₁ es₂ s.writer r') ∧
      ∀ j p, e = .done j p → ∃ es₁ es₂, es = es₁ ++ .begin j :: es₂ ∧ .begin j ∉ es₂ ∧
        ((published es₂).length < 2 ^ 32 → p = latest p₀ es₁) := by
  rcases h.readers i with ⟨hpos, _⟩ | ⟨es₁, es₂, heq, hnot, hcopy⟩
  · obtain ⟨he, hcopy⟩ := AtomicRead.next_begin hpos i h.written
    rw [hr] at he hcopy
    dsimp only at he hcopy
    subst he
    exact ⟨rfl, (fun j hj hbegin => hj (RWEvent.begin.inj hbegin).symm),
      Or.inr ⟨es, [], rfl, List.not_mem_nil, hcopy⟩, fun j p hdone => by cases hdone⟩
  · have hnext := hcopy.next (i := i) (heq ▸ h.written)
    rw [hr] at hnext
    dsimp only at hnext
    rcases hnext with ⟨rfl, hcopy'⟩ | ⟨hpos, hretry, rfl | ⟨hend, hcons, rfl⟩⟩
    · refine ⟨rfl, (fun j _ hbegin => by cases hbegin),
        Or.inr ⟨es₁, es₂ ++ [.quiet], ?_, ?_, hcopy'⟩, fun j p hdone => by cases hdone⟩
      · rw [heq, List.append_assoc, List.cons_append]
      · simpa using hnot
    · exact ⟨rfl, (fun j _ hbegin => by cases hbegin), Or.inl ⟨hpos, hretry⟩,
        fun j p hdone => by cases hdone⟩
    · refine ⟨rfl, (fun j _ hbegin => by cases hbegin), Or.inl ⟨hpos, hretry⟩, fun j p hdone => ?_⟩
      cases hdone
      exact ⟨es₁, es₂, heq, hnot, hcopy.consistent hend hcons⟩

theorem RWState.Sound.step (h : s.Sound p₀ es) (hs : s.Step e s') :
    s'.Sound p₀ (es ++ [e]) ∧ ∀ j p, e = .done j p → ∃ es₁ es₂, es = es₁ ++ .begin j :: es₂ ∧
    .begin j ∉ es₂ ∧
      ((published es₂).length < 2 ^ 32 → p = latest p₀ es₁) := by
  obtain ⟨m, hm⟩ := hs
  by_cases hread : ∃ i, m = .read i
  · obtain ⟨i, rfl⟩ := hread
    obtain ⟨he, hs'⟩ := Prod.mk.inj (Option.some.inj hm)
    obtain ⟨hnone, hothers, hown, hdone⟩ := h.reads i (Prod.ext he rfl)
    subst hs'
    refine ⟨⟨h.written.of_none hnone, fun j => ?_⟩, hdone⟩
    dsimp only
    by_cases hj : j = i
    · subst hj
      rw [Function.update_self]
      exact hown
    · rw [Function.update_of_ne hj]
      exact h.reader (hothers j hj) Or.inr
  · obtain ⟨hreaders, hwritten, hbegin, hnotDone, hwrites⟩ := h.writes hm fun i hi => hread ⟨i, hi⟩
    refine ⟨⟨hwritten, fun j => ?_⟩, fun j p hdone => ?_⟩
    · rw [hreaders]
      exact h.reader (hbegin j) hwrites
    · exact absurd hdone (hnotDone j p)

end History

end Rolex
