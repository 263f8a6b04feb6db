import Rolex.Foundations.CyclicRange
import Rolex.Foundations.Histories

/-!
The receive entries of a worker's UD queue pair: `RecvEntries`, `post_recvs`, `RecvIter` and
`UDRecvTransport`. The NIC puts a datagram into the buffer of the next entry that is posted, while
the worker walks through the completions of its last poll. Entry `i` owns buffer `i`;
`ibv_post_recv` and `ibv_poll_cq` do not fail.
-/

namespace Rolex
open CyclicRange Histories

/-- `I` are the immediate values and `B` the messages. `posted` are the entries that the NIC may
write to, in their order, `cq` the completions that are not polled. -/
structure UDRecv (I B : Type) where
  rsNext : ℕ → Option ℕ
  header : ℕ
  wcs : List (ℕ × I)
  idx : ℕ
  totalMsgs : ℤ
  posted : List ℕ
  cq : List (ℕ × I)
  buf : ℕ → B

namespace UDRecv

variable {I B : Type} (N : ℕ) (r : UDRecv I B)

def create (buf : ℕ → B) : UDRecv I B where
  rsNext i := if i < N - 1 then some (i + 1) else some 0
  header := 0
  wcs := []
  idx := 0
  totalMsgs := -1
  posted := []
  cq := []
  buf := buf

/-- `ibv_post_recv` posts what the links lead through from the header; `none` if they lead to no
end. -/
def postRecvs (num : ℕ) : Option (UDRecv I B) :=
  let tail := r.header + num - 1
  let tail := if tail ≥ N then tail - N else tail
  let temp := r.rsNext tail
  let cut := Function.update r.rsNext tail none
  (walk cut N r.header).map fun entries => { r with
    rsNext := Function.update cut tail temp
    header := (tail + 1) % N
    posted := r.posted ++ entries }

/-- A datagram arrives; without an entry it is dropped. -/
def arrive (d : I × B) : Option (UDRecv I B) :=
  match r.posted with
  | [] => none
  | e :: rest =>
    some { r with posted := rest, buf := Function.update r.buf e d.2, cq := r.cq ++ [(e, d.1)] }

/-- `ibv_poll_cq` gives at most `N` completions. -/
def begin : UDRecv I B := { r with
  wcs := r.cq.take N
  cq := r.cq.drop N
  totalMsgs := (r.cq.take N).length
  idx := 0 }

def hasMsgs : Bool := (r.idx : ℤ) < r.totalMsgs

def curMsg : Option (I × B) :=
  if r.hasMsgs then r.wcs[r.idx]?.map fun wc => (wc.2, r.buf wc.1) else none

def advance : UDRecv I B := { r with idx := r.idx + 1 }

def clear : Option (UDRecv I B) :=
  if 0 < r.totalMsgs then (r.postRecvs N r.totalMsgs.toNat).map fun r => { r with totalMsgs := -1 }
  else some { r with totalMsgs := -1 }

end UDRecv

def UDRecv.start {I B : Type} (N : ℕ) (buf : ℕ → B) : Option (UDRecv I B) :=
  (create N buf).postRecvs N N

/-! ### The event loop -/

inductive RecvEvent (D : Type) where
  | accept (d : D)
  | drop (d : D)
  | begin
  | handle (d : D)
  | finish
  deriving DecidableEq, Repr

inductive UDRecv.Step {I B : Type} (N : ℕ) :
    UDRecv I B → RecvEvent (I × B) → UDRecv I B → Prop where
  | accept {r r' : UDRecv I B} {d : I × B} : r.arrive d = some r' → Step N r (.accept d) r'
  | drop {r : UDRecv I B} {d : I × B} : r.arrive d = none → Step N r (.drop d) r
  | begin {r : UDRecv I B} : r.totalMsgs < 0 → Step N r .begin (r.begin N)
  | handle {r : UDRecv I B} {d : I × B} : r.curMsg = some d → Step N r (.handle d) r.advance
  | finish {r r' : UDRecv I B} : 0 ≤ r.totalMsgs → r.hasMsgs = false → r.clear N = some r' →
      Step N r .finish r'

/-! ### The entries in a circle -/

section Sound

variable {I B : Type} {N : ℕ} {r r' : UDRecv I B}

def UDRecv.polled (r : UDRecv I B) : List (ℕ × I) := if 0 ≤ r.totalMsgs then r.wcs else []

def UDRecv.waiting (r : UDRecv I B) : List (I × B) :=
  (r.polled.drop r.idx ++ r.cq).map fun wc => (wc.2, r.buf wc.1)

/-- The invariant: from the header on, the entries of the poll under way, those with other
completions, and those that are posted follow each other. -/
structure UDRecv.Sound (N : ℕ) (r : UDRecv I B) : Prop where
  pos : 0 < N
  header : r.header < N
  ring : ∀ i < N, r.rsNext i = some ((i + 1) % N)
  circle : r.polled.map Prod.fst ++ (r.cq.map Prod.fst ++ r.posted) = cyc N r.header N
  total : r.totalMsgs = -1 ∨ r.totalMsgs = r.wcs.length ∧ r.idx ≤ r.wcs.length

theorem UDRecv.waiting_of_outside (hout : r.totalMsgs < 0) :
    r.waiting = r.cq.map fun wc => (wc.2, r.buf wc.1) := by
  rw [waiting, polled, if_neg (not_le.mpr hout), List.drop_nil, List.nil_append]

theorem UDRecv.Sound.polled_length (h : r.Sound N) : r.polled.length ≤ N := by
  have hlength := congrArg List.length h.circle
  rw [List.length_append, length_cyc, List.length_map] at hlength
  omega

theorem UDRecv.postRecvs_ok (hN : 0 < N) (hheader : r.header < N)
    (hring : ∀ i < N, r.rsNext i = some ((i + 1) % N)) {num : ℕ} (hpos : 0 < num) (hle : num ≤ N) :
    r.postRecvs N num = some { r with
      posted := r.posted ++ cyc N r.header num
      header := (r.header + num) % N } := by
  obtain ⟨n, rfl⟩ := Nat.exists_eq_add_one_of_ne_zero hpos.ne'
  have htail : (if r.header + (n + 1) - 1 ≥ N then r.header + (n + 1) - 1 - N
    else r.header + (n + 1) - 1) =
      (r.header + n) % N := by
    rw [Nat.add_succ_sub_one]
    split
    · rename_i hge
      rw [Nat.mod_eq_sub_mod hge, Nat.mod_eq_of_lt (by omega)]
    · rename_i hlt
      exact (Nat.mod_eq_of_lt (not_le.mp hlt)).symm
  have hwalk : walk (Function.update r.rsNext ((r.header + n) % N) none) N (r.header % N) =
      some (cyc N r.header (n + 1)) := by
    refine walk_cyc hle (fun k hk => ?_) (Function.update_self ..)
    have hne : (r.header + k) % N ≠ (r.header + n) % N := fun heq =>
      hk.ne ((Nat.ModEq.add_left_cancel' r.header heq).eq_of_lt_of_lt (hk.trans hle) hle)
    rw [Function.update_of_ne hne, hring _ (Nat.mod_lt _ hN), Nat.mod_add_mod]
  rw [Nat.mod_eq_of_lt hheader] at hwalk
  rw [postRecvs, htail, hwalk, Option.map_some, Function.update_idem, Function.update_eq_self,
    Nat.mod_add_mod, Nat.add_assoc]

theorem UDRecv.start_sound (buf : ℕ → B) (hN : 0 < N) :
    ∃ r : UDRecv I B, UDRecv.start N buf = some r ∧ r.Sound N ∧ r.waiting = [] := by
  have hring : ∀ i < N, (create N buf : UDRecv I B).rsNext i = some ((i + 1) % N) := by
    intro i hi
    rw [create]
    dsimp only
    split
    · rw [Nat.mod_eq_of_lt (by omega)]
    · rw [show i + 1 = N by omega, Nat.mod_self]
  refine ⟨_, postRecvs_ok hN hN hring hN le_rfl, ⟨hN, Nat.mod_lt _ hN, hring, ?_, Or.inl rfl⟩, rfl⟩
  show cyc N 0 N = cyc N ((0 + N) % N) N
  rw [cyc_mod, Nat.zero_add, ← cyc_mod (h := N), Nat.mod_self]

theorem UDRecv.Sound.nodup (h : r.Sound N) :
    (r.polled.map Prod.fst ++ (r.cq.map Prod.fst ++ r.posted)).Nodup := by
  rw [h.circle]
  exact nodup_cyc le_rfl

theorem UDRecv.Sound.buf_waiting (h : r.Sound N) {e : ℕ} (he : e ∈ r.posted) (b : B) :
    (r.polled.drop r.idx ++ r.cq).map (fun wc => (wc.2, Function.update r.buf e b wc.1)) =
    r.waiting := by
  refine List.map_congr_left fun wc hwc => ?_
  rw [Function.update_of_ne]
  rintro rfl
  obtain ⟨_, hrest, hdisj⟩ := List.nodup_append.mp h.nodup
  rcases List.mem_append.mp hwc with hwc | hwc
  · exact hdisj _ (List.mem_map_of_mem (List.mem_of_mem_drop hwc)) _
      (List.mem_append_right _ he) rfl
  · exact (List.nodup_append.mp hrest).2.2 _ (List.mem_map_of_mem hwc) _ he rfl

theorem UDRecv.Sound.arrive (h : r.Sound N) {d : I × B} (hr : r.arrive d = some r') :
    r'.Sound N ∧ r'.waiting = r.waiting ++ [d] := by
  rw [UDRecv.arrive] at hr
  split at hr
  · cases hr
  · rename_i e rest hposted
    obtain rfl := Option.some.inj hr
    refine ⟨⟨h.pos, h.header, h.ring, ?_, h.total⟩, ?_⟩
    · rw [← h.circle, hposted]
      dsimp only [polled]
      rw [List.map_append, List.map_singleton, List.append_assoc, List.singleton_append]
    · rw [← h.buf_waiting (hposted ▸ List.mem_cons_self) d.2, waiting]
      dsimp only [polled]
      rw [← List.append_assoc, List.map_append, List.map_singleton, Function.update_self]

theorem UDRecv.Sound.begin (h : r.Sound N) (hout : r.totalMsgs < 0) :
    (r.begin N).Sound N ∧ (r.begin N).waiting = r.waiting := by
  have hpolled : r.polled = [] := if_neg (not_le.mpr hout)
  have hpolled' : (r.begin N).polled = r.cq.take N := if_pos (Int.natCast_nonneg _)
  refine ⟨⟨h.pos, h.header, h.ring, ?_, Or.inr ⟨rfl, Nat.zero_le _⟩⟩, ?_⟩
  · have hcircle := h.circle
    rw [hpolled, List.map_nil, List.nil_append] at hcircle
    rw [hpolled', ← List.append_assoc]
    dsimp only [UDRecv.begin]
    rw [← List.map_append, List.take_append_drop]
    exact hcircle
  · rw [waiting_of_outside hout, waiting, hpolled']
    dsimp only [UDRecv.begin]
    rw [List.drop_zero, List.take_append_drop]

theorem UDRecv.curMsg_eq {d : I × B} (hd : r.curMsg = some d) :
    (r.idx : ℤ) < r.totalMsgs ∧ ∃ wc, r.wcs[r.idx]? = some wc ∧ (wc.2, r.buf wc.1) = d := by
  rw [curMsg] at hd
  split at hd
  · rename_i hmsgs
    obtain ⟨wc, hwc, rfl⟩ := Option.map_eq_some_iff.mp hd
    exact ⟨of_decide_eq_true hmsgs, wc, hwc, rfl⟩
  · cases hd

theorem UDRecv.Sound.handle (h : r.Sound N) {d : I × B} (hd : r.curMsg = some d) :
    r.advance.Sound N ∧ r.waiting = d :: r.advance.waiting := by
  obtain ⟨hlt, wc, hwc, rfl⟩ := curMsg_eq hd
  obtain ⟨hidx, rfl⟩ := List.getElem?_eq_some_iff.mp hwc
  have hin : 0 ≤ r.totalMsgs := (Int.natCast_nonneg _).trans hlt.le
  have hpolled : r.polled = r.wcs := if_pos hin
  refine ⟨⟨h.pos, h.header, h.ring, h.circle, Or.inr ?_⟩, ?_⟩
  · rcases h.total with htotal | ⟨htotal, _⟩
    · rw [htotal] at hin
      exact absurd hin (by decide)
    · exact ⟨htotal, hidx⟩
  · rw [waiting, waiting, hpolled, List.drop_eq_getElem_cons hidx, List.cons_append, List.map_cons,
      show r.advance.polled = r.wcs from hpolled]
    rfl

theorem UDRecv.Sound.finish (h : r.Sound N) (hin : 0 ≤ r.totalMsgs) (hend : r.hasMsgs = false) :
    ∃ r', r.clear N = some r' ∧ r'.Sound N ∧ r'.waiting = r.waiting ∧ r'.totalMsgs = -1 := by
  have hpolled : r.polled = r.wcs := if_pos hin
  obtain ⟨htotal, hidx⟩ : r.totalMsgs = r.wcs.length ∧ r.idx ≤ r.wcs.length := by
    refine h.total.resolve_left fun htotal => ?_
    rw [htotal] at hin
    exact absurd hin (by decide)
  have hall : r.idx = r.wcs.length := by
    have hge := of_decide_eq_false hend
    rw [htotal] at hge
    omega
  have hwaiting : r.waiting = r.cq.map fun wc => (wc.2, r.buf wc.1) := by
    rw [waiting, hpolled, hall, List.drop_length, List.nil_append]
  have hcircle := h.circle
  rw [hpolled] at hcircle
  by_cases hpos : 0 < r.wcs.length
  · have hlength := hpolled ▸ h.polled_length
    refine ⟨{ r with
        posted := r.posted ++ cyc N r.header r.wcs.length
        header := (r.header + r.wcs.length) % N
        totalMsgs := -1 }, ?_, ⟨h.pos, Nat.mod_lt _ h.pos, h.ring, ?_, Or.inl rfl⟩, ?_, rfl⟩
    · rw [clear, if_pos (by omega), htotal, Int.toNat_natCast,
        postRecvs_ok h.pos h.header h.ring hpos hlength, Option.map_some]
    · have hfirst := (cyc_split hcircle).1
      rw [List.length_map] at hfirst
      have hturn := cyc_turn hcircle
      rw [List.length_map, hfirst, List.append_assoc] at hturn
      dsimp only
      rw [cyc_mod]
      exact hturn
    · rw [hwaiting, waiting_of_outside neg_one_lt_zero]
  · have hnil : r.wcs = [] := List.length_eq_zero_iff.mp (Nat.le_zero.mp (not_lt.mp hpos))
    refine ⟨{ r with totalMsgs := -1 }, ?_, ⟨h.pos, h.header, h.ring, ?_, Or.inl rfl⟩, ?_, rfl⟩
    · rw [clear, if_neg (by omega)]
    · rw [hnil] at hcircle
      exact hcircle
    · rw [hwaiting, waiting_of_outside neg_one_lt_zero]

end Sound

/-! ### Runs -/

section Runs

variable {I B : Type} {N : ℕ} {r r' : UDRecv I B}

def RecvEvent.accepted {D : Type} : RecvEvent D → Option D
  | accept d => some d
  | _ => none

def RecvEvent.handled {D : Type} : RecvEvent D → Option D
  | handle d => some d
  | _ => none

/-- What a step accepts comes behind the datagrams that wait, and what it handles is the first of
them. -/
theorem UDRecv.Sound.step (h : r.Sound N) {e : RecvEvent (I × B)} (hs : r.Step N e r') :
    r'.Sound N ∧ r.waiting ++ e.accepted.toList = e.handled.toList ++ r'.waiting := by
  cases hs with
  | accept hr =>
    obtain ⟨h', hwaiting⟩ := h.arrive hr
    exact ⟨h', hwaiting.symm⟩
  | drop => exact ⟨h, List.append_nil _⟩
  | begin hout =>
    obtain ⟨h', hwaiting⟩ := h.begin hout
    exact ⟨h', (List.append_nil _).trans hwaiting.symm⟩
  | handle hd =>
    obtain ⟨h', hwaiting⟩ := h.handle hd
    exact ⟨h', (List.append_nil _).trans hwaiting⟩
  | finish hin hend hr =>
    obtain ⟨r₁, hr₁, h', hwaiting, _⟩ := h.finish hin hend
    obtain rfl := Option.some.inj (hr₁.symm.trans hr)
    exact ⟨h', (List.append_nil _).trans hwaiting.symm⟩

structure Receiving (N : ℕ) (es : List (RecvEvent (I × B))) (r : UDRecv I B) : Prop where
  delivered : es.filterMap RecvEvent.accepted = es.filterMap RecvEvent.handled ++ r.waiting
  apart : (r.polled.map Prod.fst ++ (r.cq.map Prod.fst ++ r.posted)).Perm (List.range N)
  drops : ∀ d, r.arrive d = none → r.polled.length + r.cq.length = N
  reads : r.hasMsgs = true → ∃ d, r.curMsg = some d
  finishes : 0 ≤ r.totalMsgs → r.hasMsgs = false → ∃ r', r.clear N = some r' ∧
    r'.posted.length + r'.waiting.length = N

theorem UDRecv.Sound.reads (h : r.Sound N) (hmsgs : r.hasMsgs = true) : ∃ d, r.curMsg = some d := by
  have hlt : (r.idx : ℤ) < r.totalMsgs := of_decide_eq_true hmsgs
  rcases h.total with htotal | ⟨htotal, _⟩
  · omega
  · have hidx : r.idx < r.wcs.length := by omega
    exact ⟨_, by rw [curMsg, if_pos hmsgs, List.getElem?_eq_getElem hidx, Option.map_some]⟩

theorem UDRecv.Sound.length (h : r.Sound N) :
    r.polled.length + (r.cq.length + r.posted.length) = N := by
  have hlength := congrArg List.length h.circle
  rwa [List.length_append, List.length_append, List.length_map, List.length_map,
    length_cyc] at hlength

/-- Every datagram that finds an entry is handled once, in the order of the arrivals, with the
content it came with. At any time an entry is posted, or its completion is to be polled or was
polled in the loop under way. -/
theorem recvRing_delivers (hN : 0 < N) {buf : ℕ → B} {r₀ : UDRecv I B}
    (hstart : UDRecv.start N buf = some r₀) {es : List (RecvEvent (I × B))}
    (hrun : Run (UDRecv.Step N) r₀ es r) : Receiving N es r := by
  have hsound : r.Sound N ∧
      es.filterMap RecvEvent.accepted = es.filterMap RecvEvent.handled ++ r.waiting := by
    induction hrun with
    | start =>
      obtain ⟨r, hr, hsound, hwaiting⟩ := UDRecv.start_sound buf hN
      obtain rfl := Option.some.inj (hr.symm.trans hstart)
      exact ⟨hsound, hwaiting.symm⟩
    | @step es r r' e _ hs ih =>
      obtain ⟨hsound, hdelivered⟩ := ih
      obtain ⟨hsound', hmoved⟩ := hsound.step hs
      refine ⟨hsound', ?_⟩
      have hone : ∀ f : RecvEvent (I × B) → Option (I × B), [e].filterMap f = (f e).toList :=
        fun f => by
        cases hf : f e with
        | none => exact List.filterMap_cons_none hf
        | some d => exact List.filterMap_cons_some hf
      rw [List.filterMap_append, List.filterMap_append, hone, hone, hdelivered, List.append_assoc,
        hmoved, List.append_assoc]
  obtain ⟨h, hdelivered⟩ := hsound
  refine ⟨hdelivered, ?_, fun d hd => ?_, h.reads, fun hin hend => ?_⟩
  · rw [h.circle]
    exact cyc_perm hN
  · have hlength := h.length
    rw [UDRecv.arrive] at hd
    split at hd
    · rename_i hposted
      rw [hposted, List.length_nil] at hlength
      omega
    · cases hd
  · obtain ⟨r', hr', h', _, htotal⟩ := h.finish hin hend
    have hout : r'.totalMsgs < 0 := htotal ▸ neg_one_lt_zero
    have hlength := h'.length
    rw [UDRecv.polled, if_neg (not_le.mpr hout), List.length_nil] at hlength
    refine ⟨r', hr', ?_⟩
    rw [UDRecv.waiting_of_outside hout, List.length_map]
    omega

end Runs

theorem recvRing_delivers_two : ∃ r : UDRecv ℕ ℕ,
    Receiving 2 [.accept (1, 10), .begin, .handle (1, 10), .finish, .accept (2, 20),
      .accept (3, 30), .begin, .drop (4, 40), .handle (2, 20), .handle (3, 30), .finish,
      .accept (5, 50)] r ∧ r.header = 1 ∧ r.posted = [0] := by
  have hfirst : Run (UDRecv.Step 2) ((UDRecv.start 2 fun _ => 0 : Option (UDRecv ℕ ℕ)).get rfl) _
      _ :=
    Run.start.step (.accept (d := (1, 10)) rfl) |>.step (.begin (by decide))
      |>.step (.handle (d := (1, 10)) rfl) |>.step (.finish (by decide) rfl rfl)
  have hrun := hfirst.step (.accept (d := (2, 20)) rfl) |>.step (.accept (d := (3, 30)) rfl)
    |>.step (.begin (by decide)) |>.step (.drop (d := (4, 40)) rfl)
    |>.step (.handle (d := (2, 20)) rfl) |>.step (.handle (d := (3, 30)) rfl)
    |>.step (.finish (by decide) rfl rfl) |>.step (.accept (d := (5, 50)) rfl)
  exact ⟨_, recvRing_delivers two_pos (Option.some_get _).symm hrun, rfl, rfl⟩

end Rolex
