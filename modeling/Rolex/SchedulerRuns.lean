import Rolex.Scheduler

/-!
The runs of the scheduler: the ring holds every coroutine that is neither paused nor gone once, and
between two polls each of them has one turn, in the order of the ring.
-/

namespace Rolex
open Histories PointerRing

/-! ### The list -/

/-- The list is the ring of coroutine 0 and `xs`, and the other nodes have no links. -/
structure LinkedList.Holds (l : LinkedList) (xs : List ℕ) : Prop where
  ring : Ring l.nextP l.prevP 0 xs
  headerP : l.headerP = some 0
  tailerP : l.tailerP = some (xs.getLastD 0)
  off : ∀ c, c ∉ 0 :: xs → l.nextP c = none

namespace LinkedList.Holds

variable {l : LinkedList} {xs pre post : List ℕ} {c : ℕ}

theorem nextP_eq_none (h : l.Holds xs) : l.nextP c = none ↔ c ∉ 0 :: xs := by
  refine ⟨fun hnone hmem => ?_, h.off c⟩
  rcases List.mem_cons.mp hmem with rfl | hmem
  · rw [h.ring.segment.next_first] at hnone
    cases hnone
  · obtain ⟨pre, post, rfl⟩ := List.append_of_mem hmem
    rw [h.ring.next_eq] at hnone
    cases hnone

theorem add (h : l.Holds xs) (hc : c ∉ 0 :: xs) :
    ∃ l', l.add c = .ok l' ∧ l'.Holds (xs ++ [c]) := by
  refine ⟨{ l with
      tailerP := some c
      prevP := Function.update l.prevP c (some (xs.getLastD 0))
      nextP := Function.update (Function.update l.nextP (xs.getLastD 0) (some c)) c (some 0) },
    ?_, h.ring.add hc, h.headerP, ?_, fun d hd => ?_⟩
  · rw [LinkedList.add, h.headerP, h.tailerP]
    dsimp only
    rw [if_pos h.ring.segment.next_last]
  · rw [List.getLastD_concat]
  · rw [← List.cons_append, List.mem_append, List.mem_singleton, not_or] at hd
    have hne : d ≠ xs.getLastD 0 := fun heq => hd.1 (heq ▸ getLastD_mem 0 xs)
    dsimp only
    rw [Function.update_of_ne hd.2, Function.update_of_ne hne, h.off d hd.1]

theorem leaveOne (h : l.Holds (pre ++ c :: post)) :
    ∃ l', l.leaveOne c = .ok (post.headD 0, l') ∧ l'.Holds (pre ++ post) := by
  have hnodup := (List.nodup_cons.mp h.ring.nodup).2
  refine ⟨{ l with
      tailerP := if l.tailerP = some c then some (pre.getLastD 0) else l.tailerP
      prevP := Function.update (Function.update l.prevP (post.headD 0) (some (pre.getLastD 0))) c
        none
      nextP := Function.update (Function.update l.nextP (pre.getLastD 0) (some (post.headD 0))) c
        none },
    ?_, h.ring.leave, h.headerP, ?_, fun d hd => ?_⟩
  · rw [LinkedList.leaveOne, h.ring.next_eq, h.ring.prev_eq]
  · dsimp only
    rw [h.tailerP]
    cases post with
    | nil => rw [List.getLastD_concat, if_pos rfl, List.append_nil]
    | cons b post =>
      rw [getLastD_append_cons, getLastD_append_cons, List.getLastD_cons, if_neg]
      intro heq
      have hmem : c ∈ b :: post := Option.some.inj heq ▸ getLastD_mem b post
      exact (List.nodup_cons.mp (List.nodup_append.mp hnodup).2.1).1 hmem
  · have hd' : d ∉ 0 :: pre ∧ d ∉ post := by
      rw [← List.cons_append, List.mem_append, not_or] at hd
      exact hd
    dsimp only
    by_cases hdc : d = c
    · rw [hdc, Function.update_self]
    · have hne : d ≠ pre.getLastD 0 := fun heq => hd'.1 (heq ▸ getLastD_mem 0 pre)
      rw [Function.update_of_ne hdc, Function.update_of_ne hne]
      refine h.off d fun hmem => ?_
      rw [← List.cons_append, List.mem_append, List.mem_cons (a := d) (b := c)] at hmem
      rcases hmem with hmem | hmem | hmem
      · exact hd'.1 hmem
      · exact hdc hmem
      · exact hd'.2 hmem

end LinkedList.Holds

/-! ### The scheduler -/

def SScheduler.Paused {Φ : Type} (s : SScheduler Φ) (c : ℕ) : Prop :=
  c < s.routines ∧ s.routineChain.nextP c = none ∧ s.deleted c = false

/-- Coroutine 0 and `xs` are on the ring. Who waits for completions is paused. -/
structure SScheduler.OnRing {Φ : Type} (s : SScheduler Φ) (xs : List ℕ) : Prop where
  holds : s.routineChain.Holds xs
  known : ∀ c ∈ 0 :: xs, c < s.routines ∧ s.deleted c = false
  inactive : ∀ c, s.routineChain.nextP c = none → s.deleted c = false → s.active c = false
  routines : s.routines ≤ kMaxRoutineSupported
  slots : s.pendingFutures.length = kMaxRoutineSupported
  waiting : ∀ c k, s.pendingFutures[c]? = some k → 0 < k → s.Paused c

/-- In this round `ran` have had their turns and `left` have not; when none is left, it is the turn
of the main coroutine. -/
structure SScheduler.Sound {Φ : Type} (s : SScheduler Φ) (ran left : List ℕ) : Prop where
  onRing : s.OnRing (ran ++ left)
  cur : s.curRoutinePtr = some (left.headD 0)

section Scheduler

variable {Φ : Type} {s : SScheduler Φ} {xs ran left : List ℕ} {c : ℕ}

theorem SScheduler.Paused.not_mem (h : s.Paused c) (hs : s.OnRing xs) : c ∉ 0 :: xs :=
  hs.holds.nextP_eq_none.mp h.2.1

theorem SScheduler.OnRing.pending_eq_zero (hs : s.OnRing xs) (hc : c ∈ 0 :: xs) {k : ℕ}
    (hk : s.pendingFutures[c]? = some k) : k = 0 := by
  by_contra hne
  exact (hs.waiting c k hk (Nat.pos_of_ne_zero hne)).not_mem hs hc

theorem SScheduler.OnRing.spawn (hs : s.OnRing xs) (hlt : s.routines < kMaxRoutineSupported)
    (hdel : s.deleted s.routines = false) :
    ∃ s', s.spawn = .ok (some s.routines, s') ∧ s'.OnRing (xs ++ [s.routines]) ∧
      s'.routines = s.routines + 1 ∧ s'.deleted = s.deleted ∧
      s'.curRoutinePtr = some (s.curRoutinePtr.getD s.routines) ∧
      s'.pendingFutures = s.pendingFutures := by
  have hc : s.routines ∉ 0 :: xs := fun hmem => lt_irrefl _ (hs.known _ hmem).1
  obtain ⟨l', hadd, hl'⟩ := hs.holds.add hc
  have hoff : ∀ c, l'.nextP c = none ↔ s.routineChain.nextP c = none ∧ c ≠ s.routines := by
    intro c
    rw [hl'.nextP_eq_none, hs.holds.nextP_eq_none, ← List.cons_append, List.mem_append,
      List.mem_singleton, not_or]
  refine ⟨{ s with
      routineChain := l'
      routines := s.routines + 1
      curRoutinePtr := some (s.curRoutinePtr.getD s.routines) }, ?_,
    ⟨hl', fun c hmem => ?_, fun c hnone hdel => ?_, hlt, hs.slots, fun c k hk hpos => ?_⟩, rfl, rfl,
    rfl, rfl⟩
  · rw [SScheduler.spawn, if_neg (not_le.mpr hlt), hadd, ok_bind]
  · rw [← List.cons_append, List.mem_append, List.mem_singleton] at hmem
    rcases hmem with hmem | rfl
    · exact ⟨(hs.known c hmem).1.trans (Nat.lt_succ_self _), (hs.known c hmem).2⟩
    · exact ⟨Nat.lt_succ_self _, hdel⟩
  · exact hs.inactive c ((hoff c).mp hnone).1 hdel
  · obtain ⟨hlt', hnone, hdel'⟩ := hs.waiting c k hk hpos
    exact ⟨hlt'.trans (Nat.lt_succ_self _), (hoff c).mpr ⟨hnone, hlt'.ne⟩, hdel'⟩

theorem SScheduler.OnRing.addback (hs : s.OnRing xs) (hc : s.Paused c)
    (hzero : ∀ k, s.pendingFutures[c]? = some k → k = 0) :
    ∃ s', s.addbackCoroutine c = .ok s' ∧ s'.OnRing (xs ++ [c]) ∧
      s'.curRoutinePtr = s.curRoutinePtr ∧ s'.pendingFutures = s.pendingFutures ∧
      ∀ d, d ≠ c → s.Paused d → s'.Paused d := by
  obtain ⟨l', hadd, hl'⟩ := hs.holds.add (hc.not_mem hs)
  have hoff : ∀ d, l'.nextP d = none ↔ s.routineChain.nextP d = none ∧ d ≠ c := by
    intro d
    rw [hl'.nextP_eq_none, hs.holds.nextP_eq_none, ← List.cons_append, List.mem_append,
      List.mem_singleton, not_or]
  have hpaused : ∀ d, d ≠ c → s.Paused d →
      ({ s with routineChain := l' } : SScheduler Φ).Paused d :=
    fun d hd hp => ⟨hp.1, (hoff d).mpr ⟨hp.2.1, hd⟩, hp.2.2⟩
  refine ⟨{ s with routineChain := l' }, ?_,
    ⟨hl', fun d hmem => ?_, fun d hnone hdel => ?_, hs.routines, hs.slots, fun d k hk hpos => ?_⟩,
    rfl, rfl, hpaused⟩
  · rw [addbackCoroutine, if_pos hc.1, hc.2.2, if_neg Bool.false_ne_true, hadd, ok_bind]
  · rw [← List.cons_append, List.mem_append, List.mem_singleton] at hmem
    rcases hmem with hmem | rfl
    · exact hs.known d hmem
    · exact ⟨hc.1, hc.2.2⟩
  · exact hs.inactive d ((hoff d).mp hnone).1 hdel
  · refine hpaused d ?_ (hs.waiting d k hk hpos)
    rintro rfl
    exact hpos.ne' (hzero k hk)

/-! ### Polls -/

/-- What a future may do: it adds back paused coroutines that wait for nothing, and reports
completions that are pending. -/
structure Polled.Proper (p : Polled) (s : SScheduler Φ) : Prop where
  addedBack : ∀ c ∈ p.addedBack, s.Paused c ∧ ∀ k, s.pendingFutures[c]? = some k → k = 0
  nodup : p.addedBack.Nodup
  noErr : p.code ≠ .err
  completions : p.code = .ok ∨ p.code = .nearOk →
    0 < p.num ∧ ∃ k, s.pendingFutures[p.cid]? = some k ∧ p.num ≤ k

def ProperPolls : List (Φ × Polled) → SScheduler Φ → Prop
  | [], _ => True
  | (_, p) :: rest, s => p.Proper s ∧ ∀ res, s.pollFuture p = .ok res → ProperPolls rest res.2

theorem SScheduler.OnRing.addbacks {cs : List ℕ} :
    ∀ {s : SScheduler Φ} {xs : List ℕ}, s.OnRing xs → cs.Nodup →
    (∀ c ∈ cs, s.Paused c ∧ ∀ k, s.pendingFutures[c]? = some k → k = 0) →
    ∃ s', cs.foldlM (fun s id => s.addbackCoroutine id) s = Except.ok s' ∧ s'.OnRing (xs ++ cs) ∧
      s'.curRoutinePtr = s.curRoutinePtr ∧ s'.pendingFutures = s.pendingFutures := by
  induction cs with
  | nil => exact fun {s xs} hs _ _ => ⟨s, rfl, by rwa [List.append_nil], rfl, rfl⟩
  | cons c cs ih =>
    intro s xs hs hnodup hcs
    obtain ⟨hc, hnodup⟩ := List.nodup_cons.mp hnodup
    obtain ⟨hpaused, hzero⟩ := hcs c List.mem_cons_self
    obtain ⟨s₁, hadd, hs₁, hcur₁, hpending₁, hothers⟩ := hs.addback hpaused hzero
    obtain ⟨s₂, hrest, hs₂, hcur₂, hpending₂⟩ := ih hs₁ hnodup fun d hd => by
      obtain ⟨hd₁, hd₂⟩ := hcs d (List.mem_cons_of_mem c hd)
      exact ⟨hothers d (fun heq => hc (heq ▸ hd)) hd₁, by rwa [hpending₁]⟩
    refine ⟨s₂, ?_, by rwa [List.append_assoc] at hs₂, hcur₂.trans hcur₁, hpending₂.trans hpending₁⟩
    rw [List.foldlM_cons, hadd]
    exact hrest

theorem SScheduler.OnRing.complete (hs : s.OnRing xs) {cid num k : ℕ}
    (hk : s.pendingFutures[cid]? = some k) (hpos : 0 < num) (hle : num ≤ k) :
    ∃ s', s.complete cid num = .ok (decide (k - num = 0), s') ∧ s'.OnRing xs ∧
      s'.Paused cid ∧ s'.pendingFutures[cid]? = some (k - num) ∧
      s'.curRoutinePtr = s.curRoutinePtr := by
  have hpaused := hs.waiting cid k hk (hpos.trans_le hle)
  have hlt := (List.getElem?_eq_some_iff.mp hk).1
  refine ⟨{ s with pendingFutures := s.pendingFutures.set cid (k - num) }, ?_,
    ⟨hs.holds, hs.known, hs.inactive, hs.routines, List.length_set.trans hs.slots,
    fun c j hj hpos => ?_⟩, hpaused, List.getElem?_set_self hlt, rfl⟩
  · rw [SScheduler.complete, hk]
    exact if_pos hle
  · by_cases hc : c = cid
    · rw [hc]
      exact hpaused
    · rw [List.getElem?_set_ne (Ne.symm hc)] at hj
      exact hs.waiting c j hj hpos

theorem SScheduler.OnRing.pollFuture (hs : s.OnRing xs) {p : Polled} (hp : p.Proper s) :
    ∃ s' cs, s.pollFuture p = .ok (!decide (p.code = .ok), s') ∧ s'.OnRing (xs ++ cs) ∧
      s'.curRoutinePtr = s.curRoutinePtr := by
  obtain ⟨s₁, hadd, hs₁, hcur₁, hpending₁⟩ := hs.addbacks hp.nodup hp.addedBack
  have hkept : (!decide (p.code = .ok ∨ p.code = .err)) = !decide (p.code = .ok) := by
    simp only [hp.noErr, or_false]
  rw [SScheduler.pollFuture, hadd, ok_bind, hkept]
  by_cases hcode : p.code = .ok ∨ p.code = .nearOk
  · obtain ⟨hpos, k, hk, hle⟩ := hp.completions hcode
    obtain ⟨s₂, hcomplete, hs₂, hpaused, hk₂, hcur₂⟩ := hs₁.complete (hpending₁ ▸ hk) hpos hle
    rw [if_pos hcode, hcomplete, ok_bind]
    dsimp only
    rw [SScheduler.settle, if_neg hp.noErr]
    by_cases hdone : k - p.num = 0
    · obtain ⟨s₃, hback, hs₃, hcur₃, _⟩ := hs₂.addback hpaused fun j hj => by
        rw [hk₂] at hj
        rw [← Option.some.inj hj, hdone]
      refine ⟨s₃, p.addedBack ++ [p.cid], ?_, by rwa [← List.append_assoc],
        hcur₃.trans (hcur₂.trans hcur₁)⟩
      rw [if_pos (decide_eq_true hdone), SScheduler.wake, if_pos hpaused.1,
        hs₂.inactive p.cid hpaused.2.1 hpaused.2.2, if_neg Bool.false_ne_true, hback, ok_bind]
    · refine ⟨s₂, p.addedBack, ?_, hs₂, hcur₂.trans hcur₁⟩
      rw [if_neg (by simpa using hdone), ok_bind]
  · refine ⟨s₁, p.addedBack, ?_, hs₁, hcur₁⟩
    rw [if_neg hcode, ok_bind]
    dsimp only
    rw [SScheduler.settle, if_neg hp.noErr, if_neg Bool.false_ne_true, ok_bind]

theorem SScheduler.OnRing.pollFutures {fs : List (Φ × Polled)} :
    ∀ {s : SScheduler Φ} {xs : List ℕ}, s.OnRing xs →
    ProperPolls fs s → ∃ s' cs, SScheduler.pollFutures fs s =
        .ok ((fs.filter fun f => !decide (f.2.code = .ok)).map Prod.fst, s') ∧
        s'.OnRing (xs ++ cs) ∧
      s'.curRoutinePtr = s.curRoutinePtr := by
  induction fs with
  | nil => exact fun {s xs} hs _ => ⟨s, [], rfl, by rwa [List.append_nil], rfl⟩
  | cons f fs ih =>
    obtain ⟨f, p⟩ := f
    intro s xs hs ⟨hp, hrest⟩
    obtain ⟨s₁, cs, hpoll, hs₁, hcur₁⟩ := hs.pollFuture hp
    obtain ⟨s₂, cs', hpolls, hs₂, hcur₂⟩ := ih hs₁ (hrest _ hpoll)
    refine ⟨s₂, cs ++ cs', ?_, by rwa [← List.append_assoc], hcur₂.trans hcur₁⟩
    rw [SScheduler.pollFutures, hpoll, ok_bind, hpolls, ok_bind]
    dsimp only
    by_cases hcode : p.code = .ok
    · rw [List.filter_cons_of_neg (by simp [hcode])]
      simp [hcode]
    · rw [List.filter_cons_of_pos (by simp [hcode])]
      simp [hcode]

theorem SScheduler.OnRing.pollAllFutures (hs : s.OnRing xs) {outcomes : List Polled}
    (hp : ProperPolls (s.futures.zip outcomes) s) :
    ∃ s' cs, s.pollAllFutures outcomes = .ok s' ∧ s'.OnRing (xs ++ cs) ∧
      s'.curRoutinePtr = s.curRoutinePtr := by
  obtain ⟨s₁, cs, hpolls, hs₁, hcur⟩ := hs.pollFutures hp
  refine ⟨{ s₁ with
      futures := ((s.futures.zip outcomes).filter fun f => !decide (f.2.code = .ok)).map Prod.fst },
        cs, ?_,
    ⟨hs₁.holds, hs₁.known, hs₁.inactive, hs₁.routines, hs₁.slots, hs₁.waiting⟩, hcur⟩
  rw [SScheduler.pollAllFutures, hpolls, ok_bind]

/-! ### Switches -/

theorem SScheduler.OnRing.execute (hs : s.OnRing xs) (hc : c ∈ 0 :: xs) :
    (s.execute c).OnRing xs := by
  refine ⟨hs.holds, hs.known, fun d hnone hdel => ?_, hs.routines, hs.slots, hs.waiting⟩
  have hne : d ≠ c := by
    rintro rfl
    exact hs.holds.nextP_eq_none.mp hnone hc
  rw [SScheduler.execute]
  dsimp only
  rw [Function.update_of_ne hne]
  exact hs.inactive d hnone hdel

theorem headD_mem (xs : List ℕ) : xs.headD 0 ∈ 0 :: xs := by
  cases xs with
  | nil => exact List.mem_cons_self
  | cons x xs => exact List.mem_cons_of_mem 0 List.mem_cons_self

theorem headD_mem_append (ran rest : List ℕ) : rest.headD 0 ∈ 0 :: (ran ++ rest) := by
  rcases List.mem_cons.mp (headD_mem rest) with hmem | hmem
  · rw [hmem]
    exact List.mem_cons_self
  · exact List.mem_cons_of_mem 0 (List.mem_append_right ran hmem)

theorem SScheduler.Sound.yield_main (h : s.Sound ran []) :
    ∃ s', s.yieldToNext = .ok s' ∧ s'.Sound [] ran ∧ s'.routineChain = s.routineChain := by
  have hs := h.onRing
  rw [List.append_nil] at hs
  have hcur : s.curRoutinePtr = some 0 := h.cur
  by_cases hran : ran.headD 0 = 0
  · refine ⟨{ s with curRoutinePtr := some (ran.headD 0) }, ?_,
      ⟨⟨hs.holds, hs.known, hs.inactive, hs.routines, hs.slots, hs.waiting⟩, rfl⟩, rfl⟩
    rw [SScheduler.yieldToNext, hcur]
    dsimp only
    rw [hs.holds.ring.segment.next_first]
    exact if_pos hran
  · refine ⟨({ s with curRoutinePtr := some (ran.headD 0) } : SScheduler Φ).execute (ran.headD 0),
      ?_, ⟨?_, rfl⟩, rfl⟩
    · rw [SScheduler.yieldToNext, hcur]
      dsimp only
      rw [hs.holds.ring.segment.next_first]
      exact if_neg hran
    · exact SScheduler.OnRing.execute ⟨hs.holds, hs.known, hs.inactive, hs.routines, hs.slots,
        hs.waiting⟩ (headD_mem ran)

section Turns

variable {rest : List ℕ}

theorem SScheduler.Sound.next_ne (h : s.Sound ran (c :: rest)) : rest.headD 0 ≠ c ∧ c ≠ 0 := by
  have hnodup := h.onRing.holds.ring.nodup
  obtain ⟨hzero, hnodup⟩ := List.nodup_cons.mp hnodup
  have hc : c ≠ 0 := by
    rintro rfl
    exact hzero (List.mem_append_right _ List.mem_cons_self)
  refine ⟨fun heq => ?_, hc⟩
  rcases List.mem_cons.mp (headD_mem rest) with hmem | hmem
  · exact hc (heq.symm.trans hmem)
  · rw [heq] at hmem
    exact (List.nodup_cons.mp (List.nodup_append.mp hnodup).2.1).1 hmem

theorem SScheduler.Sound.mem_rest (h : s.Sound ran (c :: rest)) {d : ℕ} :
    d ∈ ran ++ rest ↔ d ∈ ran ++ c :: rest ∧ d ≠ c := by
  have hnodup := (List.nodup_cons.mp h.onRing.holds.ring.nodup).2
  have hnot := (List.nodup_cons.mp (List.perm_middle.nodup_iff.mp hnodup)).1
  simp only [List.mem_append, List.mem_cons]
  constructor
  · refine fun hmem => ⟨by tauto, ?_⟩
    rintro rfl
    exact hnot (List.mem_append.mpr hmem)
  · tauto

theorem SScheduler.Sound.yield (h : s.Sound ran (c :: rest)) :
    ∃ s', s.yieldToNext = .ok s' ∧ s'.Sound (ran ++ [c]) rest := by
  have hs := h.onRing
  have hcur : s.curRoutinePtr = some c := h.cur
  have happ : ran ++ c :: rest = (ran ++ [c]) ++ rest := by
    rw [List.append_assoc, List.singleton_append]
  refine ⟨({ s with curRoutinePtr := some (rest.headD 0) } : SScheduler Φ).execute (rest.headD 0),
    ?_, ⟨?_, rfl⟩⟩
  · rw [SScheduler.yieldToNext, hcur]
    dsimp only
    rw [hs.holds.ring.next_eq]
    exact if_neg h.next_ne.1
  · rw [← happ]
    refine SScheduler.OnRing.execute ⟨hs.holds, hs.known, hs.inactive, hs.routines, hs.slots,
      hs.waiting⟩ ?_
    rw [happ]
    exact headD_mem_append (ran ++ [c]) rest

theorem off_of_leave {l l' : LinkedList} (h : l.Holds (ran ++ c :: rest))
    (h' : l'.Holds (ran ++ rest)) {d : ℕ} : l'.nextP d = none ↔ l.nextP d = none ∨ d = c := by
  have hmem : d ∈ 0 :: (ran ++ c :: rest) ↔ d ∈ 0 :: (ran ++ rest) ∨ d = c := by
    simp only [List.mem_cons, List.mem_append]
    tauto
  have hc : c ∉ 0 :: (ran ++ rest) := by
    have hnodup := h.ring.nodup
    rw [← List.cons_append] at hnodup ⊢
    exact fun hc => by
      have hperm : (0 :: ran ++ c :: rest).Perm (c :: (0 :: ran ++ rest)) := List.perm_middle
      exact (List.nodup_cons.mp (hperm.nodup_iff.mp hnodup)).1 hc
  rw [h.nextP_eq_none, h'.nextP_eq_none, hmem]
  constructor
  · intro hd
    by_cases hdc : d = c
    · exact Or.inr hdc
    · exact Or.inl fun hor => hor.elim hd hdc
  · rintro (hd | rfl)
    · exact fun hd' => hd (Or.inl hd')
    · exact hc

theorem SScheduler.Sound.pause (h : s.Sound ran (c :: rest)) {pending : List ℕ} (fs : List Φ)
    (hlen : pending.length = s.pendingFutures.length)
    (hpending : ∀ d, d ≠ c → pending[d]? = s.pendingFutures[d]?) :
    ∃ s', ({ s with pendingFutures := pending, futures := fs } : SScheduler Φ).pauseAndYield =
      .ok s' ∧
      s'.Sound ran rest := by
  have hs := h.onRing
  have hcur : s.curRoutinePtr = some c := h.cur
  obtain ⟨l', hleave, hl'⟩ := hs.holds.leaveOne
  have hoff : ∀ d, l'.nextP d = none ↔ s.routineChain.nextP d = none ∨ d = c :=
    fun d => off_of_leave hs.holds hl'
  have hc := hs.known c (List.mem_cons_of_mem 0 (List.mem_append_right ran List.mem_cons_self))
  refine ⟨({ s with
      pendingFutures := pending
      futures := fs
      routineChain := l'
      active := Function.update s.active c false
      curRoutinePtr := some (rest.headD 0) } : SScheduler Φ).execute (rest.headD 0), ?_,
    SScheduler.OnRing.execute ⟨hl', fun d hd => ?_, fun d hnone hdel => ?_, hs.routines,
    hlen.trans hs.slots,
      fun d k hk hpos => ?_⟩ (headD_mem_append ran rest), rfl⟩
  · rw [SScheduler.pauseAndYield]
    dsimp only
    rw [hcur]
    dsimp only
    rw [hleave, ok_bind]
  · refine hs.known d ?_
    simp only [List.mem_cons, List.mem_append] at hd ⊢
    tauto
  · dsimp only at hnone hdel ⊢
    by_cases hdc : d = c
    · rw [hdc, Function.update_self]
    · rw [Function.update_of_ne hdc]
      exact hs.inactive d (((hoff d).mp hnone).resolve_right hdc) hdel
  · by_cases hdc : d = c
    · rw [hdc]
      exact ⟨hc.1, (hoff c).mpr (Or.inr rfl), hc.2⟩
    · dsimp only at hk
      rw [hpending d hdc] at hk
      obtain ⟨hlt, hnone, hdel⟩ := hs.waiting d k hk hpos
      exact ⟨hlt, (hoff d).mpr (Or.inl hnone), hdel⟩

theorem SScheduler.Sound.exit (h : s.Sound ran (c :: rest)) :
    ∃ s', s.exit = .ok s' ∧ s'.Sound ran rest := by
  have hs := h.onRing
  have hcur : s.curRoutinePtr = some c := h.cur
  obtain ⟨l', hleave, hl'⟩ := hs.holds.leaveOne
  have hoff : ∀ d, l'.nextP d = none ↔ s.routineChain.nextP d = none ∨ d = c :=
    fun d => off_of_leave hs.holds hl'
  have hc : c ∈ 0 :: (ran ++ c :: rest) :=
    List.mem_cons_of_mem 0 (List.mem_append_right ran List.mem_cons_self)
  have hother : ∀ d, d ≠ c → Function.update s.deleted c true d = s.deleted d :=
    fun d hd => Function.update_of_ne hd ..
  refine ⟨({ s with
      routineChain := l'
      deleted := Function.update s.deleted c true
      curRoutinePtr := some (rest.headD 0) } : SScheduler Φ).execute (rest.headD 0), ?_,
    SScheduler.OnRing.execute ⟨hl', fun d hd => ?_, fun d hnone hdel => ?_, hs.routines, hs.slots,
      fun d k hk hpos => ?_⟩ (headD_mem_append ran rest), rfl⟩
  · rw [SScheduler.exit, hcur]
    dsimp only
    rw [hleave, ok_bind]
    dsimp only
    rw [if_neg h.next_ne.1]
  · have hdc : d ≠ c := by
      rintro rfl
      exact hl'.nextP_eq_none.mp ((hoff d).mpr (Or.inr rfl)) hd
    dsimp only
    rw [hother d hdc]
    refine hs.known d ?_
    simp only [List.mem_cons, List.mem_append] at hd ⊢
    tauto
  · have hdel : Function.update s.deleted c true d = false := hdel
    have hdc : d ≠ c := by
      rintro rfl
      rw [Function.update_self] at hdel
      cases hdel
    rw [hother d hdc] at hdel
    exact hs.inactive d (((hoff d).mp hnone).resolve_right hdc) hdel
  · have hwait := hs.waiting d k hk hpos
    have hdc : d ≠ c := by
      rintro rfl
      exact hwait.not_mem hs hc
    refine ⟨hwait.1, (hoff d).mpr (Or.inl hwait.2.1), ?_⟩
    dsimp only
    rw [hother d hdc]
    exact hwait.2.2

end Turns

/-! ### What stays as it is -/

theorem SScheduler.addbackCoroutine_eq {s' : SScheduler Φ} (h : s.addbackCoroutine c = .ok s') :
    ∃ chain, s' = { s with routineChain := chain } := by
  rw [addbackCoroutine] at h
  split at h
  · split at h
    · cases h
    · obtain ⟨chain, _, hok⟩ := bind_eq_ok h
      exact ⟨chain, (Except.ok.inj hok).symm⟩
  · cases h

theorem SScheduler.addbacks_eq {cs : List ℕ} : ∀ {s s' : SScheduler Φ},
    cs.foldlM (fun s id => s.addbackCoroutine id) s = Except.ok s' →
    ∃ chain, s' = { s with routineChain := chain } := by
  induction cs with
  | nil => exact fun {s s'} h => ⟨s.routineChain, (Except.ok.inj h).symm⟩
  | cons c cs ih =>
    intro s s' h
    rw [List.foldlM_cons] at h
    obtain ⟨s₁, hadd, h⟩ := bind_eq_ok h
    obtain ⟨_, rfl⟩ := addbackCoroutine_eq hadd
    obtain ⟨chain, rfl⟩ := ih h
    exact ⟨chain, rfl⟩

structure SScheduler.Kept (s s' : SScheduler Φ) : Prop where
  routines : s'.routines = s.routines
  pendingFutures : s'.pendingFutures = s.pendingFutures
  futures : s'.futures = s.futures

theorem SScheduler.yieldToNext_kept {s' : SScheduler Φ} (h : s.yieldToNext = .ok s') :
    s.Kept s' ∧ s'.deleted = s.deleted := by
  rw [yieldToNext] at h
  split at h
  · cases h
  · split at h
    · cases h
    · split at h <;>
      · obtain rfl := Except.ok.inj h
        exact ⟨⟨rfl, rfl, rfl⟩, rfl⟩

theorem SScheduler.pauseAndYield_kept {s' : SScheduler Φ} (h : s.pauseAndYield = .ok s') :
    s.Kept s' ∧ s'.deleted = s.deleted := by
  rw [pauseAndYield] at h
  split at h
  · cases h
  · obtain ⟨_, _, hok⟩ := bind_eq_ok h
    obtain rfl := Except.ok.inj hok
    exact ⟨⟨rfl, rfl, rfl⟩, rfl⟩

theorem SScheduler.exit_kept {s' : SScheduler Φ} (hcur : s.curRoutinePtr = some c)
    (h : s.exit = .ok s') : s.Kept s' ∧ s'.deleted = Function.update s.deleted c true := by
  rw [exit, hcur] at h
  obtain ⟨_, _, hok⟩ := bind_eq_ok h
  dsimp only at hok
  split at hok <;>
  · obtain rfl := Except.ok.inj hok
    exact ⟨⟨rfl, rfl, rfl⟩, rfl⟩

/-! ### Runs -/

def Turn.Proper (s : SScheduler Φ) : Turn Φ → Prop
  | .poll outcomes => ProperPolls (s.futures.zip outcomes) s
  | _ => True

def SScheduler.Step (s : SScheduler Φ) (e : ℕ × Turn Φ) (s' : SScheduler Φ) : Prop :=
  s.curRoutinePtr = some e.1 ∧ e.2.Proper s ∧ s.turn e.1 e.2 = some (.ok s')

theorem SScheduler.Sound.turn_cons {rest : List ℕ} (h : s.Sound ran (c :: rest)) {t : Turn Φ}
    {res : Except SchedFault (SScheduler Φ)} (ht : s.turn c t = some res) :
    ∃ s' ran', res = .ok s' ∧ s'.Sound ran' rest := by
  have hne := h.next_ne.2
  have hlt : c < s.pendingFutures.length := by
    have hlt :=
      (h.onRing.known c (List.mem_cons_of_mem 0 (List.mem_append_right ran List.mem_cons_self))).1
    rw [h.onRing.slots]
    exact hlt.trans_le h.onRing.routines
  have hget := List.getElem?_eq_getElem hlt
  have hset : ∀ k d, d ≠ c → (s.pendingFutures.set c k)[d]? = s.pendingFutures[d]? :=
    fun k d hd => List.getElem?_set_ne hd.symm
  cases t with
  | poll outcomes =>
    rw [SScheduler.turn, if_neg fun hand => hne hand.1] at ht
    cases ht
  | yield =>
    rw [SScheduler.turn, if_neg hne] at ht
    obtain ⟨s', hs', hsound⟩ := h.yield
    exact ⟨s', _, (Option.some.inj ht).symm.trans hs', hsound⟩
  | pause =>
    rw [SScheduler.turn, if_neg hne] at ht
    obtain ⟨s', hs', hsound⟩ := h.pause s.futures rfl fun _ _ => rfl
    exact ⟨s', _, (Option.some.inj ht).symm.trans hs', hsound⟩
  | waitNum num =>
    rw [SScheduler.turn, if_neg hne, SScheduler.waitNum, hget] at ht
    obtain ⟨s', hs', hsound⟩ := h.pause s.futures List.length_set (hset (s.pendingFutures[c] + num))
    exact ⟨s', _, (Option.some.inj ht).symm.trans hs', hsound⟩
  | pauseWait num f =>
    rw [SScheduler.turn, if_neg hne, SScheduler.emplaceForRoutine, SScheduler.waitNum, hget] at ht
    obtain ⟨s', hs', hsound⟩ :=
      h.pause (s.futures ++ [f]) List.length_set (hset (s.pendingFutures[c] + num))
    exact ⟨s', _, (Option.some.inj ht).symm.trans hs', hsound⟩
  | ret =>
    rw [SScheduler.turn, if_neg hne] at ht
    obtain ⟨s', hs', hsound⟩ := h.exit
    exact ⟨s', _, (Option.some.inj ht).symm.trans hs', hsound⟩

theorem SScheduler.Sound.turn_nil (h : s.Sound ran []) {t : Turn Φ} (hp : t.Proper s)
    {res : Except SchedFault (SScheduler Φ)} (ht : s.turn 0 t = some res) :
    ∃ s' xs, res = .ok s' ∧ s'.Sound [] xs := by
  cases t with
  | poll outcomes =>
    rw [SScheduler.turn] at ht
    split at ht
    · have hs := h.onRing
      rw [List.append_nil] at hs
      obtain ⟨s₁, cs, hpoll, hs₁, hcur⟩ := hs.pollAllFutures hp
      have hsound₁ : s₁.Sound (ran ++ cs) [] := ⟨by rwa [List.append_nil], hcur.trans h.cur⟩
      obtain ⟨s', hyield, hsound, _⟩ := hsound₁.yield_main
      rw [hpoll, ok_bind, hyield] at ht
      exact ⟨s', _, (Option.some.inj ht).symm, hsound⟩
    · cases ht
  | yield | pause | waitNum | pauseWait | ret =>
    rw [SScheduler.turn, if_pos rfl] at ht
    cases ht

theorem SScheduler.Sound.step (h : s.Sound ran left) {e : ℕ × Turn Φ} {s' : SScheduler Φ}
    (hs : s.Step e s') :
    left = [] ∧ e.1 = 0 ∧ (∃ xs, s'.Sound [] xs) ∨ ∃ rest ran', left = e.1 :: rest ∧
      s'.Sound ran' rest := by
  obtain ⟨hcur, hp, ht⟩ := hs
  have he : e.1 = left.headD 0 := Option.some.inj (hcur.symm.trans h.cur)
  cases left with
  | nil =>
    rw [he] at ht
    obtain ⟨s₁, xs, hok, hsound⟩ := h.turn_nil hp ht
    obtain rfl := Except.ok.inj hok
    exact Or.inl ⟨rfl, he, xs, hsound⟩
  | cons c rest =>
    obtain rfl : e.1 = c := he
    obtain ⟨s₁, ran', hok, hsound⟩ := h.turn_cons ht
    obtain rfl := Except.ok.inj hok
    exact Or.inr ⟨rest, ran', rfl, hsound⟩

theorem SScheduler.spawnAll_ok (n : ℕ) : ∃ s : SScheduler Φ, spawnAll n = .ok s ∧
    s.Sound (List.range' 1 (s.routines - 1)) [] ∧ (∀ c, s.deleted c = false) ∧
    s.pendingFutures = List.replicate kMaxRoutineSupported 0 ∧ 0 < s.routines ∧
    (n < kMaxRoutineSupported → s.routines = n + 1) := by
  induction n with
  | zero =>
    refine ⟨⟨⟨some 0, some 0, Function.update (fun _ => none) 0 (some 0),
      Function.update (fun _ => none) 0 (some 0)⟩, 1, some 0, fun _ => false, fun _ => false,
      fun _ => false, List.replicate kMaxRoutineSupported 0, []⟩, rfl, ⟨?_, rfl⟩, fun _ => rfl, rfl,
      one_pos, fun _ => rfl⟩
    refine ⟨⟨⟨rfl, List.nodup_singleton 0⟩, rfl, rfl, fun c hc => ?_⟩, fun c hc => ?_,
      fun _ _ _ => rfl, (by decide : 1 ≤ kMaxRoutineSupported), List.length_replicate,
      fun c k hk hpos => ?_⟩
    · have hoff : Function.update (fun _ => none) 0 (some 0) c = (none : Option ℕ) :=
        Function.update_of_ne (List.ne_of_not_mem_cons hc) ..
      exact hoff
    · obtain rfl := List.mem_singleton.mp hc
      exact ⟨one_pos, rfl⟩
    · dsimp only at hk
      rw [List.getElem?_replicate] at hk
      split at hk
      · exact absurd (Option.some.inj hk).symm hpos.ne'
      · cases hk
  | succ n ih =>
    obtain ⟨s, hok, hsound, hdel, hpending, hpos, hroutines⟩ := ih
    have hs := hsound.onRing
    rw [List.append_nil] at hs
    rw [spawnAll, hok, ok_bind]
    by_cases hlt : s.routines < kMaxRoutineSupported
    · obtain ⟨s', hspawn, hs', hcount, hdel', hcur, hpending'⟩ := hs.spawn hlt (hdel _)
      have hrange : List.range' 1 (s'.routines - 1) =
          List.range' 1 (s.routines - 1) ++ [s.routines] := by
        rw [hcount, Nat.add_sub_cancel, ← Nat.sub_add_cancel hpos, List.range'_concat,
          Nat.add_sub_cancel]
        simp [Nat.add_comm]
      refine ⟨s', by rw [hspawn, ok_bind], ⟨by rwa [hrange, List.append_nil], ?_⟩,
        fun c => by rw [hdel', hdel], hpending'.trans hpending, hcount ▸ Nat.succ_pos _,
        fun hn => by rw [hcount, hroutines (Nat.lt_of_succ_lt hn)]⟩
      rw [hcur, hsound.cur]
      rfl
    · refine ⟨s, by rw [SScheduler.spawn, if_pos (not_lt.mp hlt), ok_bind], hsound, hdel, hpending,
        hpos, fun hn => ?_⟩
      exact absurd (hroutines (Nat.lt_of_succ_lt hn) ▸ hn) hlt

theorem SScheduler.start_sound {n : ℕ} {fs : List Φ} {s₀ : SScheduler Φ}
    (hstart : SScheduler.start n fs = .ok s₀) : ∃ xs, s₀.Sound xs [] := by
  obtain ⟨s, hok, hstart⟩ := bind_eq_ok hstart
  obtain ⟨_, hok', hsound, _⟩ := SScheduler.spawnAll_ok n
  obtain rfl := Except.ok.inj (hok.symm.trans hok')
  obtain rfl := Except.ok.inj hstart
  have hs := hsound.onRing
  exact ⟨_, ⟨hs.holds, hs.known, hs.inactive, hs.routines, hs.slots, hs.waiting⟩, hsound.cur⟩

theorem scheduler_run {n : ℕ} {fs : List Φ} {s₀ : SScheduler Φ}
    (hstart : SScheduler.start n fs = .ok s₀) {es : List (ℕ × Turn Φ)}
    (hrun : Run SScheduler.Step s₀ es s) : ∃ ran left, s.Sound ran left := by
  obtain ⟨xs, hsound₀⟩ := SScheduler.start_sound hstart
  refine hrun.invariant (I := fun s => ∃ ran left, s.Sound ran left) ⟨xs, [], hsound₀⟩ ?_
  rintro s e s' ⟨ran, left, hsound⟩ hs
  rcases hsound.step hs with ⟨_, _, xs, hsound'⟩ | ⟨rest, ran', _, hsound'⟩
  · exact ⟨[], xs, hsound'⟩
  · exact ⟨ran', rest, hsound'⟩

structure Scheduled (s : SScheduler Φ) (xs : List ℕ) : Prop where
  ring : Ring s.routineChain.nextP s.routineChain.prevP 0 xs
  once : ∀ c < s.routines, c ∈ 0 :: xs ∨ s.Paused c ∨ s.deleted c = true
  apart : ∀ c ∈ 0 :: xs, ¬s.Paused c ∧ s.deleted c = false
  waiting : ∀ c k, s.pendingFutures[c]? = some k → 0 < k → s.Paused c
  goesOn : ∀ cur t res, s.curRoutinePtr = some cur → t.Proper s → s.turn cur t = some res →
    ∃ s', res = .ok s'

/-- Every coroutine is on the ring once, paused, or gone; who waits for completions is paused; and
no turn stops the scheduler. -/
theorem scheduler_rings {n : ℕ} {fs : List Φ} {s₀ : SScheduler Φ}
    (hstart : SScheduler.start n fs = .ok s₀) {es : List (ℕ × Turn Φ)}
    (hrun : Run SScheduler.Step s₀ es s) : ∃ xs, Scheduled s xs := by
  obtain ⟨ran, left, hsound⟩ := scheduler_run hstart hrun
  have hs := hsound.onRing
  refine ⟨ran ++ left, hs.holds.ring, fun c hc => ?_, fun c hc => ?_, hs.waiting,
    fun cur t res hcur hp ht => ?_⟩
  · by_cases hmem : c ∈ 0 :: (ran ++ left)
    · exact Or.inl hmem
    · right
      cases hdel : s.deleted c with
      | true => exact Or.inr rfl
      | false => exact Or.inl ⟨hc, hs.holds.nextP_eq_none.mpr hmem, hdel⟩
  · exact ⟨fun hp => hp.not_mem hs hc, (hs.known c hc).2⟩
  · obtain rfl : cur = left.headD 0 := Option.some.inj (hcur.symm.trans hsound.cur)
    cases left with
    | nil =>
      obtain ⟨s', _, hok, _⟩ := hsound.turn_nil hp ht
      exact ⟨s', hok⟩
    | cons c rest =>
      obtain ⟨s', _, hok, _⟩ := hsound.turn_cons ht
      exact ⟨s', hok⟩

/-- Between two turns of the main coroutine everybody who is on the ring after its poll has one
turn, in the order of the ring. -/
theorem scheduler_rounds {n : ℕ} {fs : List Φ} {s₀ : SScheduler Φ}
    (hstart : SScheduler.start n fs = .ok s₀) {es : List (ℕ × Turn Φ)}
    (hrun : Run SScheduler.Step s₀ es s) {t : Turn Φ} {s₁ : SScheduler Φ} (hmain : s.Step (0, t) s₁)
    {es' : List (ℕ × Turn Φ)} {s₂ : SScheduler Φ} (hround : Run SScheduler.Step s₁ es' s₂)
    (hothers : ∀ e ∈ es', e.1 ≠ 0) :
    ∃ xs, Ring s₁.routineChain.nextP s₁.routineChain.prevP 0 xs ∧ es'.map Prod.fst <+: xs ∧
      (s₂.curRoutinePtr = some 0 ↔ es'.map Prod.fst = xs) := by
  obtain ⟨ran, left, hsound⟩ := scheduler_run hstart hrun
  obtain ⟨xs, hsound₁⟩ : ∃ xs, s₁.Sound [] xs := by
    rcases hsound.step hmain with ⟨_, _, hxs⟩ | ⟨rest, _, hleft, _⟩
    · exact hxs
    · subst hleft
      exact absurd rfl hsound.next_ne.2
  obtain ⟨ran₂, left₂, hsound₂, hturns⟩ : ∃ ran left, s₂.Sound ran left ∧
      es'.map Prod.fst ++ left = xs := by
    clear hrun hmain
    induction hround with
    | start => exact ⟨[], xs, hsound₁, rfl⟩
    | @step es' s s' e hround hs ih =>
      obtain ⟨ran, left, hsound, hturns⟩ := ih fun e he => hothers e (List.mem_append_left _ he)
      rcases hsound.step hs with ⟨_, hzero, _⟩ | ⟨rest, ran', rfl, hsound'⟩
      · exact absurd hzero (hothers e (List.mem_append_right _ (List.mem_singleton_self e)))
      · refine ⟨ran', rest, hsound', ?_⟩
        rw [List.map_append, List.map_singleton, List.append_assoc, List.singleton_append, hturns]
  refine ⟨xs, hsound₁.onRing.holds.ring, ⟨left₂, hturns⟩, ?_⟩
  rw [hsound₂.cur, ← hturns, Option.some.injEq]
  cases left₂ with
  | nil => exact iff_of_true rfl (List.append_nil _).symm
  | cons c rest =>
    exact iff_of_false hsound₂.next_ne.2 fun heq => by simpa using congrArg List.length heq

end Scheduler

/-! ### Two coroutines -/

def idle : Polled := ⟨[], .notReady, 0, 0⟩

theorem exists_turn {Φ : Type} {s : SScheduler Φ} {c : ℕ} {t : Turn Φ} {p : SScheduler Φ → Bool}
    (h : ((s.turn c t).getD (.error .nullNode)).toOption.any p = true) :
    ∃ s', s.turn c t = some (.ok s') ∧ p s' = true := by
  obtain ⟨s', hs', hp⟩ := exists_ok h
  cases ht : s.turn c t with
  | none =>
    rw [ht] at hs'
    cases hs'
  | some res =>
    rw [ht] at hs'
    obtain rfl : res = .ok s' := hs'
    exact ⟨s', rfl, hp⟩

theorem idle_proper {Φ : Type} (s : SScheduler Φ) : idle.Proper s :=
  ⟨fun c hc => (List.not_mem_nil hc).elim, List.nodup_nil, (by decide),
    fun hcode => by simp [idle] at hcode⟩

theorem Polled.Proper.polls {Φ : Type} {s : SScheduler Φ} {p : Polled} (hp : p.Proper s) :
    ProperPolls (s.futures.zip [p]) s := by
  cases hfs : s.futures with
  | nil => trivial
  | cons f fs => exact ⟨hp, fun _ _ => by cases fs <;> trivial⟩

theorem pauseThenYield : ∃ s₀ s₁ s₂ : SScheduler Unit, SScheduler.start 2 [()] = .ok s₀ ∧
    s₀.Step (0, .poll [idle]) s₁ ∧ Run SScheduler.Step s₁ [(1, .pause), (2, .yield)] s₂ := by
  obtain ⟨s₀, hstart, h⟩ :=
    exists_ok (p := fun s₀ : SScheduler Unit => decide (s₀.curRoutinePtr = some 0) &&
      ((s₀.turn 0 (.poll [idle])).getD (.error .nullNode)).toOption.any fun s₁ : SScheduler Unit =>
        decide (s₁.curRoutinePtr = some 1) &&
        ((s₁.turn 1 .pause).getD (.error .nullNode)).toOption.any fun s₂ : SScheduler Unit =>
          decide (s₂.curRoutinePtr = some 2) &&
            ((s₂.turn 2 .yield).getD (.error .nullNode)).toOption.any fun _ => true)
    (by rfl : (SScheduler.start 2 [()]).toOption.any _ = true)
  obtain ⟨hcur₀, h⟩ := Bool.and_eq_true_iff.mp h
  obtain ⟨s₁, hpoll, h⟩ := exists_turn h
  obtain ⟨hcur₁, h⟩ := Bool.and_eq_true_iff.mp h
  obtain ⟨s₂, hpause, h⟩ := exists_turn h
  obtain ⟨hcur₂, h⟩ := Bool.and_eq_true_iff.mp h
  obtain ⟨s₃, hyield, _⟩ := exists_turn h
  have hmain : s₀.Step (0, .poll [idle]) s₁ :=
    ⟨of_decide_eq_true hcur₀, (idle_proper s₀).polls, hpoll⟩
  have hfirst : s₁.Step (1, .pause) s₂ := ⟨of_decide_eq_true hcur₁, trivial, hpause⟩
  have hsecond : s₂.Step (2, .yield) s₃ := ⟨of_decide_eq_true hcur₂, trivial, hyield⟩
  exact ⟨s₀, s₁, s₃, hstart, hmain, (Run.start.step hfirst).step hsecond⟩

/-- The first coroutine waits for a completion and the second one pauses; then a future adds the
second one back and reports the completion. -/
theorem scheduler_rings_two : ∃ (s : SScheduler Unit) (xs : List ℕ), Scheduled s xs ∧
    s.curRoutinePtr = some 2 ∧ s.pendingFutures[1]? = some 0 := by
  let done : Polled := ⟨[2], .nearOk, 1, 1⟩
  obtain ⟨s₀, hstart, h⟩ := exists_ok
    (p := fun s₀ : SScheduler Unit => decide (s₀.curRoutinePtr = some 0) &&
      ((s₀.turn 0 (.poll [idle])).getD (.error .nullNode)).toOption.any fun s₁ : SScheduler Unit =>
        decide (s₁.curRoutinePtr = some 1) &&
        ((s₁.turn 1 (.waitNum 1)).getD (.error .nullNode)).toOption.any
          fun s₂ : SScheduler Unit => decide (s₂.curRoutinePtr = some 2) &&
          ((s₂.turn 2 .pause).getD (.error .nullNode)).toOption.any
            fun s₃ : SScheduler Unit => decide (s₃.curRoutinePtr = some 0 ∧ 2 < s₃.routines ∧
              s₃.routineChain.nextP 2 = none ∧ s₃.deleted 2 = false ∧
              s₃.pendingFutures[2]? = some 0 ∧ s₃.pendingFutures[1]? = some 1) &&
            ((s₃.turn 0 (.poll [⟨[2], .nearOk, 1, 1⟩])).getD (.error .nullNode)).toOption.any
              fun s₄ : SScheduler Unit =>
                decide (s₄.curRoutinePtr = some 2 ∧ s₄.pendingFutures[1]? = some 0))
    (by rfl : (SScheduler.start 2 [()]).toOption.any _ = true)
  obtain ⟨hcur₀, h⟩ := Bool.and_eq_true_iff.mp h
  obtain ⟨s₁, hpoll, h⟩ := exists_turn h
  obtain ⟨hcur₁, h⟩ := Bool.and_eq_true_iff.mp h
  obtain ⟨s₂, hwait, h⟩ := exists_turn h
  obtain ⟨hcur₂, h⟩ := Bool.and_eq_true_iff.mp h
  obtain ⟨s₃, hpause, h⟩ := exists_turn h
  obtain ⟨h₃, h⟩ := Bool.and_eq_true_iff.mp h
  obtain ⟨hcur₃, hknown, hoff, hdel, hnone, hone⟩ := of_decide_eq_true h₃
  obtain ⟨s₄, hpoll', h₄⟩ := exists_turn h
  have hproper : done.Proper s₃ := by
    refine ⟨fun c hc => ?_, List.nodup_singleton 2, (by decide),
      fun _ => ⟨one_pos, 1, hone, le_rfl⟩⟩
    obtain rfl := List.mem_singleton.mp hc
    exact ⟨⟨hknown, hoff, hdel⟩, fun k hk => (Option.some.inj (hnone.symm.trans hk)).symm⟩
  have hidle : s₀.Step (0, .poll [idle]) s₁ :=
    ⟨of_decide_eq_true hcur₀, (idle_proper s₀).polls, hpoll⟩
  have hfirst : s₁.Step (1, .waitNum 1) s₂ := ⟨of_decide_eq_true hcur₁, trivial, hwait⟩
  have hsecond : s₂.Step (2, .pause) s₃ := ⟨of_decide_eq_true hcur₂, trivial, hpause⟩
  have hdone : s₃.Step (0, .poll [done]) s₄ := ⟨hcur₃, hproper.polls, hpoll'⟩
  obtain ⟨xs, hxs⟩ := scheduler_rings hstart
    ((((Run.start.step hidle).step hfirst).step hsecond).step hdone)
  exact ⟨s₄, xs, hxs, of_decide_eq_true h₄⟩

theorem scheduler_rounds_two : ∃ s₁ s₂ : SScheduler Unit, ∃ xs,
    Ring s₁.routineChain.nextP s₁.routineChain.prevP 0 xs ∧ [1, 2] <+: xs ∧
    (s₂.curRoutinePtr = some 0 ↔ [1, 2] = xs) := by
  obtain ⟨s₀, s₁, s₂, hstart, hmain, hround⟩ := pauseThenYield
  exact ⟨s₁, s₂, scheduler_rounds hstart .start hmain hround fun e he => by fin_cases he <;> decide⟩

end Rolex
