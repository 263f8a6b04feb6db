import Rolex.Foundations.Histories
import Rolex.RpcCore
import Rolex.WindowSafety

/-!
One client worker whose coroutines are in `remote_search`, and one server worker. A datagram is
delivered at most once and in any order; the scheduler resumes the coroutines that were added back.
-/

namespace Rolex
open Bytes Histories

structure System where
  client : RPCCore
  bufs : ReplyBufs
  paused : ℕ → Bool
  addedBack : List ℕ
  server : RPCCore
  toServer : List Packet
  fromServer : List Packet

def System.start (server : RPCCore) : System :=
  ⟨RPCCore.construct 12, fun _ => [], fun _ => false, [], server, [], []⟩

variable {F : Type} {N : ℕ}

/-- A coroutine runs `remote_search` up to its pause, the server handles a datagram while the index
is `index`, the future handles one, or the scheduler resumes a coroutine. -/
inductive Move (F : Type) (N : ℕ) where
  | call (cor : ℕ) (key : Key) (raw : Header)
      (replyBuf : {bs : List Byte // bs.length = sizeofReplyValue})
  | serve (i : ℕ) (index : RolexIndex F Val N) (u : Uninit)
  | poll (i : ℕ) (u : Uninit)
  | resume (cor : ℕ)

inductive Event (F : Type) (N : ℕ) where
  | call (cor : ℕ) (key : Key)
  | serve (cor : ℕ) (key : Key) (index : RolexIndex F Val N)
  | poll (cor : ℕ) (addedBack : Bool)
  | resume (cor : ℕ) (replyBuf : List Byte)

def Event.cor : Event F N → ℕ
  | call cor _ => cor
  | serve cor _ _ => cor
  | poll cor _ => cor
  | resume cor _ => cor

variable (fmt : DoubleFormat F) (epsilon : ℕ) (setup : ClientSetup)

def System.next (s : System) : Move F N → Option (Except RpcFault (Event F N × System))
  | .call cor key raw replyBuf =>
    if 1 ≤ cor ∧ cor ≤ setup.coros ∧ s.paused cor = false then
      some do
        let res ← remoteSearch key cor raw s.client.replyStation
        .ok (.call cor key, { s with
          client := { s.client with replyStation := res.1 }
          bufs := Function.update s.bufs cor replyBuf.1
          paused := Function.update s.paused cor true
          toServer := s.toServer ++ [setup.sender.sendUnsignaled res.2] })
    else none
  | .serve i index u =>
    s.toServer[i]?.map fun p => do
      let res ← receive false (serverCallbacks fmt epsilon) index u s.server (fun _ => []) p
      .ok (.serve p.msg.header.corId (wordOf 0 p.msg.body) index, { s with
        server := res.core
        toServer := s.toServer.eraseIdx i
        fromServer := s.fromServer ++ res.sent.toList })
  | .poll i u =>
    (s.fromServer[i]?.filter fun p => p.dest = setup.attr).map fun p => do
      let res ← receive true [] () u s.client s.bufs p
      .ok (.poll p.msg.header.corId res.addback.isSome, { s with
        client := res.core
        bufs := res.bufs
        addedBack := s.addedBack ++ res.addback.toList
        fromServer := s.fromServer.eraseIdx i })
  | .resume cor =>
    if cor ∈ s.addedBack then
      some (.ok (.resume cor (s.bufs cor), { s with
        paused := Function.update s.paused cor false
        addedBack := s.addedBack.erase cor }))
    else none

def System.Step (s : System) (e : Event F N) (s' : System) : Prop :=
  ∃ m, s.next fmt epsilon setup m = some (.ok (e, s'))

/-! ### A remote call, abstractly -/

inductive CallPhase where
  | running
  | asked (key : Key)
  | answered (reply : ReplyValue)
  | ready (reply : ReplyValue)

/-- One request, one answer to its key, one time put back, and the answer in the buffer. -/
def CallPhase.next : CallPhase → Event F N → Option CallPhase
  | .running, .call _ key => some (.asked key)
  | .asked key, .serve _ k index =>
    if k = key then
      match getReply fmt epsilon index key with
      | .ok reply => some (.answered reply)
      | .error _ => none
    else none
  | .answered reply, .poll _ true => some (.ready reply)
  | .ready reply, .resume _ replyBuf => if replyBuf = reply.toBytes then some .running else none
  | _, _ => none

/-! ### One coroutine -/

def underWay (cor : ℕ) (packets : List Packet) : List Packet :=
  packets.filter fun p => p.msg.header.corId.val = cor

section UnderWay

variable {cor i : ℕ} {packets : List Packet} {p : Packet}

theorem underWay_concat_self (h : p.msg.header.corId.val = cor) :
    underWay cor (packets ++ [p]) = underWay cor packets ++ [p] := by
  rw [underWay, List.filter_append, List.filter_singleton, decide_eq_true h, cond_true, underWay]

theorem underWay_concat_ne (h : p.msg.header.corId.val ≠ cor) :
    underWay cor (packets ++ [p]) = underWay cor packets := by
  rw [underWay, List.filter_append, List.filter_singleton, decide_eq_false h, cond_false,
    List.append_nil, underWay]

theorem mem_underWay (hp : packets[i]? = some p) : p ∈ underWay p.msg.header.corId.val packets :=
  List.mem_filter.mpr ⟨List.mem_of_getElem? hp, decide_eq_true rfl⟩

theorem underWay_split (hp : packets[i]? = some p) (cor : ℕ) :
    underWay cor packets =
    underWay cor (packets.take i) ++ underWay cor (p :: packets.drop (i + 1)) := by
  obtain ⟨hi, rfl⟩ := List.getElem?_eq_some_iff.mp hp
  rw [underWay, underWay, underWay, ← List.filter_append, ← List.drop_eq_getElem_cons hi,
    List.take_append_drop]

theorem underWay_eraseIdx_ne (hp : packets[i]? = some p) (h : p.msg.header.corId.val ≠ cor) :
    underWay cor (packets.eraseIdx i) = underWay cor packets := by
  rw [underWay_split hp, List.eraseIdx_eq_take_drop_succ, underWay, List.filter_append, underWay,
    underWay, List.filter_cons_of_neg (by simpa using h)]

theorem underWay_eraseIdx_self (hp : packets[i]? = some p) {q : Packet}
    (h : underWay p.msg.header.corId.val packets = [q]) :
    p = q ∧ underWay p.msg.header.corId.val (packets.eraseIdx i) = [] := by
  rw [underWay_split hp, underWay, underWay, List.filter_cons_of_pos (by simp)] at h
  rw [List.eraseIdx_eq_take_drop_succ, underWay, List.filter_append]
  rcases List.append_eq_singleton_iff.mp h with ⟨hpre, hpost⟩ | ⟨_, hpost⟩
  · obtain ⟨rfl, hrest⟩ := List.cons_eq_cons.mp hpost
    exact ⟨rfl, by rw [hpre, hrest, List.append_nil]⟩
  · cases hpost

theorem exists_of_underWay (h : underWay cor packets = [p]) :
    ∃ i : ℕ, packets[i]? = some p ∧ p.msg.header.corId.val = cor := by
  have hp : p ∈ underWay cor packets := h ▸ List.mem_singleton_self p
  obtain ⟨hp, hcor⟩ := List.mem_filter.mp hp
  obtain ⟨i, hi⟩ := List.mem_iff_getElem?.mp hp
  exact ⟨i, hi, of_decide_eq_true hcor⟩

end UnderWay

structure CorView where
  paused : Bool
  entry : Option ReplyEntry
  requests : List Packet
  replies : List Packet
  addedBack : ℕ
  replyBuf : List Byte

def System.view (s : System) (cor : ℕ) : CorView :=
  ⟨s.paused cor, s.client.replyStation[cor]?, underWay cor s.toServer, underWay cor s.fromServer,
    s.addedBack.count cor, s.bufs cor⟩

inductive InPhase (setup : ClientSetup) (cor : ℕ) : CorView → CallPhase → Prop where
  | running {entry : Option ReplyEntry} {replyBuf : List Byte} (hentry : ∀ r, entry = some r →
      r.pendingReplies = 0) : InPhase setup cor ⟨false, entry, [], [], 0, replyBuf⟩ .running
  | asked {key : Key} {replyBuf : List Byte} (hbuf : replyBuf.length = sizeofReplyValue) :
      InPhase setup cor ⟨true, some (.waiting cor),
        [setup.sender.sendUnsignaled (requestMessage .get (toBytes 8 key) cor)], [], 0,
        replyBuf⟩ (.asked key)
  | answered {reply : ReplyValue} {raw : Header} {replyBuf : List Byte}
      (hbuf : replyBuf.length = sizeofReplyValue) : InPhase setup cor ⟨true, some (.waiting cor),
      [],
        [setup.session.sendUnsignaled (replyMessage reply raw (Fin.ofNat _ cor))], 0,
        replyBuf⟩ (.answered reply)
  | ready {reply : ReplyValue} :
      InPhase setup cor ⟨true, some (.filled cor), [], [], 1, reply.toBytes⟩ (.ready reply)

structure System.Sound (setup : ClientSetup) (s : System) : Prop where
  station : s.client.replyStation.length = 12
  session : s.server.incomingSesions setup.threadId = some (some setup.session)
  phases : ∀ cor, ∃ phase, InPhase setup cor (s.view cor) phase

/-- A step takes the coroutine of its event to its next phase, and changes nothing of the others. -/
structure Moved (s : System) (e : Event F N) (s' : System) : Prop where
  station : s'.client.replyStation.length = s.client.replyStation.length
  session : s'.server = s.server
  other : ∀ cor, cor ≠ e.cor → s'.view cor = s.view cor
  own : ∀ phase, InPhase setup e.cor (s.view e.cor) phase →
    ∃ phase', phase.next fmt epsilon e = some phase' ∧ InPhase setup e.cor (s'.view e.cor) phase'

variable {fmt epsilon setup}

section Phases

variable {cor : ℕ} {v : CorView} {phase : CallPhase}

theorem InPhase.of_not_paused (h : InPhase setup cor v phase) (hp : v.paused = false) :
    phase = .running ∧ v = ⟨false, v.entry, [], [], 0, v.replyBuf⟩ ∧ ∀ r, v.entry = some r →
    r.pendingReplies = 0 := by
  cases h with
  | running hentry => exact ⟨rfl, rfl, hentry⟩
  | asked | answered | ready => cases hp

theorem InPhase.of_mem_requests (h : InPhase setup cor v phase) {p : Packet} (hp : p ∈ v.requests) :
    ∃ key, phase = .asked key ∧ v = ⟨true, some (.waiting cor),
      [setup.sender.sendUnsignaled (requestMessage .get (toBytes 8 key) cor)], [], 0, v.replyBuf⟩ ∧
      v.replyBuf.length = sizeofReplyValue := by
  cases h with
  | asked hbuf => exact ⟨_, rfl, rfl, hbuf⟩
  | running | answered | ready => cases hp

theorem InPhase.of_mem_replies (h : InPhase setup cor v phase) {p : Packet} (hp : p ∈ v.replies) :
    ∃ reply raw, phase = .answered reply ∧ v = ⟨true, some (.waiting cor), [],
      [setup.session.sendUnsignaled (replyMessage reply raw (Fin.ofNat _ cor))], 0, v.replyBuf⟩ ∧
      v.replyBuf.length = sizeofReplyValue := by
  cases h with
  | answered hbuf => exact ⟨_, _, rfl, rfl, hbuf⟩
  | running | asked | ready => cases hp

theorem InPhase.of_addedBack (h : InPhase setup cor v phase) (hp : v.addedBack ≠ 0) :
    ∃ reply, phase = .ready reply ∧ v = ⟨true, some (.filled cor), [], [], 1, reply.toBytes⟩ := by
  cases h with
  | ready => exact ⟨_, rfl, rfl⟩
  | running | asked | answered => exact absurd rfl hp

theorem InPhase.unique {phase' : CallPhase} (h : InPhase setup cor v phase)
    (h' : InPhase setup cor v phase') : phase' = phase := by
  generalize hv : v = v' at h'
  cases h with
  | running =>
    obtain ⟨rfl, _, _⟩ := h'.of_not_paused (hv ▸ rfl)
    rfl
  | @asked key =>
    subst hv
    obtain ⟨key', rfl, hv, _⟩ := h'.of_mem_requests (List.mem_singleton_self _)
    have hbody : toBytes 8 key = toBytes 8 key' :=
      congrArg (fun p => p.msg.body) (List.singleton_inj.mp (congrArg CorView.requests hv))
    rw [← wordOf_toBytes key, hbody, wordOf_toBytes]
  | @answered reply =>
    subst hv
    obtain ⟨reply', _, rfl, hv, _⟩ := h'.of_mem_replies (List.mem_singleton_self _)
    have hbody : reply.toBytes = reply'.toBytes :=
      congrArg (fun p => p.msg.body) (List.singleton_inj.mp (congrArg CorView.replies hv))
    rw [← reply.ofBytes_toBytes, hbody, reply'.ofBytes_toBytes]
  | @ready reply =>
    subst hv
    obtain ⟨reply', rfl, hv⟩ := h'.of_addedBack one_ne_zero
    have hbody : reply.toBytes = reply'.toBytes := congrArg CorView.replyBuf hv
    rw [← reply.ofBytes_toBytes, hbody, reply'.ofBytes_toBytes]

end Phases

/-! ### One step -/

namespace System

variable (s : System)

def called (setup : ClientSetup) (cor : ℕ) (key : Key) (replyBuf : List Byte) : System := { s with
  client := { s.client with replyStation := s.client.replyStation.set cor (.waiting cor) }
  bufs := Function.update s.bufs cor replyBuf
  paused := Function.update s.paused cor true
  toServer := s.toServer ++
    [setup.sender.sendUnsignaled (requestMessage .get (toBytes 8 key) cor)] }

def served (i : ℕ) (sent : Packet) : System := { s with
  toServer := s.toServer.eraseIdx i
  fromServer := s.fromServer ++ [sent] }

def polled (i cor : ℕ) (reply : ReplyValue) : System := { s with
  client := { s.client with replyStation := s.client.replyStation.set cor (.filled cor) }
  bufs := Function.update s.bufs cor reply.toBytes
  addedBack := s.addedBack ++ [cor]
  fromServer := s.fromServer.eraseIdx i }

def resumed (cor : ℕ) : System := { s with
  paused := Function.update s.paused cor false
  addedBack := s.addedBack.erase cor }

variable {s}

theorem next_call {cor : ℕ} (hle : 1 ≤ cor ∧ cor ≤ setup.coros) (hpaused : s.paused cor = false)
    (hlt : cor < 128) {r : ReplyEntry} (hr : s.client.replyStation[cor]? = some r)
    (hp : r.pendingReplies = 0) (key : Key) (raw : Header)
    (replyBuf : {bs : List Byte // bs.length = sizeofReplyValue}) :
    s.next fmt epsilon setup (N := N) (.call cor key raw replyBuf) =
      some (.ok (.call cor key, s.called setup cor key replyBuf.1)) := by
  rw [next, if_pos ⟨hle.1, hle.2, hpaused⟩, remoteSearch_ok hlt hr hp]
  rfl

theorem next_serve {i : ℕ} {p : Packet} (hp : s.toServer[i]? = some p) {cor : ℕ} {key : Key}
    (hmsg : p.msg = requestMessage .get (toBytes 8 key) cor) (hlt : cor < 128) {replyc : UDSession}
    (hsession : s.server.incomingSesions p.immData = some (some replyc))
    (index : RolexIndex F Val N) (u : Uninit) :
    s.next fmt epsilon setup (.serve i index u) = some (do
      let reply ← getReply fmt epsilon index key
      .ok (.serve cor key index,
        s.served i (replyc.sendUnsignaled (replyMessage reply u.header (Fin.ofNat _ cor))))) := by
  have hcor : p.msg.header.corId.val = cor := by
    rw [hmsg]
    exact Nat.mod_eq_of_lt hlt
  have hkey : wordOf 0 p.msg.body = key := by
    rw [hmsg]
    exact wordOf_toBytes key
  rw [next, hp, Option.map_some, receive_getRequest hmsg hsession, hcor, hkey]
  cases getReply fmt epsilon index key <;> rfl

theorem next_poll {i : ℕ} {p : Packet} (hp : s.fromServer[i]? = some p)
    (hdest : p.dest = setup.attr) {cor : ℕ} {reply : ReplyValue} {raw : Header}
    (hmsg : p.msg = replyMessage reply raw (Fin.ofNat _ cor)) (hlt : cor < 128)
    (hr : s.client.replyStation[cor]? = some (.waiting cor))
    (hbuf : (s.bufs cor).length = sizeofReplyValue) (u : Uninit) :
    s.next fmt epsilon setup (N := N) (.poll i u) =
      some (.ok (.poll cor true, s.polled i cor reply)) := by
  obtain ⟨hfilter, hcor, hreceive⟩ := receive_arrived hp hdest hmsg hlt hr hbuf
  rw [next, hfilter, Option.map_some, hreceive, hcor]
  rfl

theorem next_resume {cor : ℕ} (h : cor ∈ s.addedBack) :
    s.next fmt epsilon setup (N := N) (.resume cor) =
      some (.ok (.resume cor (s.bufs cor), s.resumed cor)) := if_pos h

end System

namespace System.Sound

variable {s : System} {res : Except RpcFault (Event F N × System)}

theorem call (h : s.Sound setup) (hcoros : setup.coros ≤ 11) {cor : ℕ} {key : Key} {raw : Header}
    {replyBuf : {bs : List Byte // bs.length = sizeofReplyValue}}
    (hm : s.next fmt epsilon setup (.call cor key raw replyBuf) = some res) :
    ∃ e s', res = .ok (e, s') ∧ Moved fmt epsilon setup s e s' := by
  have hcall : 1 ≤ cor ∧ cor ≤ setup.coros ∧ s.paused cor = false := by
    by_contra hcall
    rw [System.next, if_neg hcall] at hm
    cases hm
  obtain ⟨hone, hle, hpaused⟩ := hcall
  obtain ⟨phase, hphase₀⟩ := h.phases cor
  obtain ⟨rfl, hv, hentry⟩ := hphase₀.of_not_paused hpaused
  have hlt : cor < s.client.replyStation.length := by
    rw [h.station]
    omega
  have hr := List.getElem?_eq_getElem hlt
  rw [next_call ⟨hone, hle⟩ hpaused (by omega) hr (hentry _ hr)] at hm
  have hcor : (setup.sender.sendUnsignaled
      (requestMessage .get (toBytes 8 key) cor)).msg.header.corId.val = cor :=
    Nat.mod_eq_of_lt (by omega)
  refine ⟨.call cor key, _, (Option.some.inj hm).symm, List.length_set, rfl, fun c hc => ?_,
    fun phase hphase => ?_⟩
  · have hc : c ≠ cor := hc
    rw [System.view, called]
    dsimp only
    rw [Function.update_of_ne hc, Function.update_of_ne hc, List.getElem?_set_ne (Ne.symm hc),
      underWay_concat_ne (by rw [hcor]; exact Ne.symm hc), System.view]
  · rw [hphase₀.unique hphase]
    refine ⟨.asked key, rfl, ?_⟩
    have hrequests : underWay cor s.toServer = [] := congrArg CorView.requests hv
    have hreplies : underWay cor s.fromServer = [] := congrArg CorView.replies hv
    have hcount : s.addedBack.count cor = 0 := congrArg CorView.addedBack hv
    rw [Event.cor, System.view, called]
    dsimp only
    rw [Function.update_self, Function.update_self, List.getElem?_set_self hlt,
      underWay_concat_self hcor, hrequests, hreplies, hcount, List.nil_append]
    exact .asked replyBuf.2

theorem serve (h : s.Sound setup) {i : ℕ} {index : RolexIndex F Val N} {u : Uninit}
    (hm : s.next fmt epsilon setup (.serve i index u) = some res) :
    (∃ e, res = .error (.index e)) ∨ ∃ e s', res = .ok (e, s') ∧
    Moved fmt epsilon setup s e s' := by
  obtain ⟨p, hp, _⟩ := Option.map_eq_some_iff.mp hm
  obtain ⟨phase, hphase₀⟩ := h.phases p.msg.header.corId
  obtain ⟨key, rfl, hv, hbuf⟩ := hphase₀.of_mem_requests (mem_underWay hp)
  obtain ⟨hpq, herased⟩ := underWay_eraseIdx_self hp (congrArg CorView.requests hv)
  have hmsg : p.msg = requestMessage .get (toBytes 8 key) p.msg.header.corId :=
    congrArg Packet.msg hpq
  have hsession : s.server.incomingSesions p.immData = some (some setup.session) := by
    rw [show p.immData = setup.threadId from congrArg Packet.immData hpq]
    exact h.session
  rw [next_serve hp hmsg p.msg.header.corId.isLt hsession] at hm
  obtain rfl := Option.some.inj hm
  cases hreply : getReply fmt epsilon index key with
  | error f =>
    obtain ⟨e, rfl⟩ := getReply_error hreply
    exact Or.inl ⟨e, rfl⟩
  | ok reply =>
    have hcor : (setup.session.sendUnsignaled (replyMessage reply u.header
        (Fin.ofNat _ p.msg.header.corId))).msg.header.corId.val = p.msg.header.corId.val :=
      Nat.mod_eq_of_lt p.msg.header.corId.isLt
    refine Or.inr ⟨.serve p.msg.header.corId key index, _, rfl, rfl, rfl, fun c hc => ?_,
      fun phase hphase => ?_⟩
    · have hc : c ≠ p.msg.header.corId.val := hc
      rw [System.view, served]
      dsimp only
      rw [underWay_eraseIdx_ne hp (Ne.symm hc), underWay_concat_ne (by rw [hcor]; exact Ne.symm hc),
        System.view]
    · rw [hphase₀.unique hphase]
      refine ⟨.answered reply, by rw [CallPhase.next, if_pos rfl, hreply], ?_⟩
      have hpaused : s.paused p.msg.header.corId = true := congrArg CorView.paused hv
      have hentry : s.client.replyStation[p.msg.header.corId.val]? =
          some (.waiting p.msg.header.corId) :=
        congrArg CorView.entry hv
      have hreplies : underWay p.msg.header.corId s.fromServer = [] := congrArg CorView.replies hv
      have hcount : s.addedBack.count p.msg.header.corId.val = 0 := congrArg CorView.addedBack hv
      rw [Event.cor, System.view, served]
      dsimp only
      rw [hpaused, hentry, herased, underWay_concat_self hcor, hreplies, hcount, List.nil_append]
      exact .answered hbuf

theorem poll (h : s.Sound setup) {i : ℕ} {u : Uninit}
    (hm : s.next fmt epsilon setup (.poll i u) = some res) :
    ∃ e s', res = .ok (e, s') ∧ Moved fmt epsilon setup s e s' := by
  obtain ⟨p, hp, _⟩ := Option.map_eq_some_iff.mp hm
  obtain ⟨hp, hdest⟩ := Option.filter_eq_some_iff.mp hp
  obtain ⟨phase, hphase₀⟩ := h.phases p.msg.header.corId
  obtain ⟨reply, raw, rfl, hv, hbuf⟩ := hphase₀.of_mem_replies (mem_underWay hp)
  obtain ⟨hpq, herased⟩ := underWay_eraseIdx_self hp (congrArg CorView.replies hv)
  have hmsg : p.msg = replyMessage reply raw (Fin.ofNat _ p.msg.header.corId) :=
    congrArg Packet.msg hpq
  have hentry : s.client.replyStation[p.msg.header.corId.val]? =
      some (.waiting p.msg.header.corId) :=
    congrArg CorView.entry hv
  rw [next_poll hp (of_decide_eq_true hdest) hmsg p.msg.header.corId.isLt hentry hbuf] at hm
  refine ⟨.poll p.msg.header.corId true, _, (Option.some.inj hm).symm, List.length_set, rfl,
    fun c hc => ?_, fun phase hphase => ?_⟩
  · have hc : c ≠ p.msg.header.corId.val := hc
    rw [System.view, polled]
    dsimp only
    rw [Function.update_of_ne hc, List.getElem?_set_ne (Ne.symm hc),
      underWay_eraseIdx_ne hp (Ne.symm hc), List.count_append, List.count_singleton,
      if_neg (by simpa using Ne.symm hc), Nat.add_zero, System.view]
  · rw [hphase₀.unique hphase]
    refine ⟨.ready reply, rfl, ?_⟩
    have hpaused : s.paused p.msg.header.corId = true := congrArg CorView.paused hv
    have hrequests : underWay p.msg.header.corId s.toServer = [] := congrArg CorView.requests hv
    have hcount : s.addedBack.count p.msg.header.corId.val = 0 := congrArg CorView.addedBack hv
    rw [Event.cor, System.view, polled]
    dsimp only
    rw [Function.update_self, List.getElem?_set_self (List.getElem?_eq_some_iff.mp hentry).1,
      hpaused, hrequests, herased, List.count_append, hcount, List.count_singleton_self]
    exact .ready

theorem resume (h : s.Sound setup) {cor : ℕ}
    (hm : s.next fmt epsilon setup (.resume cor) = some res) :
    ∃ e s', res = .ok (e, s') ∧ Moved fmt epsilon setup s e s' := by
  have hmem : cor ∈ s.addedBack := by
    by_contra hmem
    rw [System.next, if_neg hmem] at hm
    cases hm
  obtain ⟨phase, hphase₀⟩ := h.phases cor
  obtain ⟨reply, rfl, hv⟩ := hphase₀.of_addedBack (List.count_pos_iff.mpr hmem).ne'
  rw [next_resume hmem] at hm
  refine ⟨.resume cor (s.bufs cor), _, (Option.some.inj hm).symm, rfl, rfl, fun c hc => ?_,
    fun phase hphase => ?_⟩
  · have hc : c ≠ cor := hc
    rw [System.view, resumed]
    dsimp only
    rw [Function.update_of_ne hc, List.count_erase_of_ne hc, System.view]
  · rw [hphase₀.unique hphase]
    have hbuf : s.bufs cor = reply.toBytes := congrArg CorView.replyBuf hv
    refine ⟨.running, by rw [CallPhase.next, if_pos hbuf], ?_⟩
    have hentry : s.client.replyStation[cor]? = some (.filled cor) := congrArg CorView.entry hv
    have hrequests : underWay cor s.toServer = [] := congrArg CorView.requests hv
    have hreplies : underWay cor s.fromServer = [] := congrArg CorView.replies hv
    have hcount : s.addedBack.count cor = 1 := congrArg CorView.addedBack hv
    rw [Event.cor, System.view, resumed]
    dsimp only
    rw [Function.update_self, hentry, hrequests, hreplies, List.count_erase_self, hcount]
    refine .running fun r hr => ?_
    obtain rfl := Option.some.inj hr
    rfl

theorem next (h : s.Sound setup) (hcoros : setup.coros ≤ 11) {m : Move F N}
    (hm : s.next fmt epsilon setup m = some res) : (∃ e, res = .error (.index e)) ∨
    ∃ e s', res = .ok (e, s') ∧ Moved fmt epsilon setup s e s' := by
  cases m with
  | call cor key raw replyBuf => exact Or.inr (h.call hcoros hm)
  | serve i index u => exact h.serve hm
  | poll i u => exact Or.inr (h.poll hm)
  | resume cor => exact Or.inr (h.resume hm)

theorem moved (h : s.Sound setup) {e : Event F N} {s' : System}
    (hmoved : Moved fmt epsilon setup s e s') : s'.Sound setup where
  station := hmoved.station.trans h.station
  session := by
    rw [hmoved.session]
    exact h.session
  phases := fun cor => by
    by_cases hcor : cor = e.cor
    · subst hcor
      obtain ⟨phase, hphase⟩ := h.phases e.cor
      obtain ⟨phase', _, hphase'⟩ := hmoved.own phase hphase
      exact ⟨phase', hphase'⟩
    · rw [hmoved.other cor hcor]
      exact h.phases cor

end System.Sound

/-! ### Every run -/

/-- The server has the session of the client. -/
def RPCCore.Connected (server : RPCCore) (setup : ClientSetup) : Prop :=
  server.incomingSesions setup.threadId = some (some setup.session)

theorem connected_of_connect {S : Type} (setup : ClientSetup) (callbacks : List (Callback S))
    (shared : S) (u : Uninit) (bufs : ReplyBufs) (numCors : ℕ) (raw : Header) :
    ∃ p res, setup.connectPacket raw = .ok p ∧
      receive false callbacks shared u (RPCCore.construct numCors) bufs p = .ok res ∧
      res.core.Connected setup := by
  obtain ⟨core', hadd, _, hid, _⟩ :=
    (RPCCore.construct numCors).addImpl_ok setup.threadId setup.attr
  exact ⟨_, _, setup.connectPacket_ok raw, (receive_connect rfl).trans (congrArg (· >>= _) hadd),
    hid⟩

theorem System.start_sound {server : RPCCore} (h : server.Connected setup) :
    (System.start server).Sound setup where
  station := List.length_replicate
  session := h
  phases := fun cor => ⟨.running, .running fun r hr => by
    rw [System.start, RPCCore.construct, ReplyStation.construct, List.getElem?_replicate] at hr
    split at hr
    · obtain rfl := Option.some.inj hr
      rfl
    · cases hr⟩

theorem System.Step.moved {s s' : System} {e : Event F N} (hs : s.Step fmt epsilon setup e s')
    (h : s.Sound setup) (hcoros : setup.coros ≤ 11) : Moved fmt epsilon setup s e s' := by
  obtain ⟨m, hm⟩ := hs
  rcases h.next hcoros hm with ⟨_, herror⟩ | ⟨_, _, hok, hmoved⟩
  · cases herror
  · cases hok
    exact hmoved

variable (fmt epsilon setup)

/-- The events of every coroutine are those of its calls, one after another, and nothing but the
index stops a worker. -/
structure CallsAnswered (es : List (Event F N)) (s : System) : Prop where
  pending : ∀ r ∈ s.client.replyStation, r.pendingReplies ≤ 1
  stops : ∀ (m : Move F N) f, s.next fmt epsilon setup m = some (.error f) → ∃ e, f = .index e
  addedBack : s.addedBack.Nodup
  calls : ∀ cor, (follow (CallPhase.next fmt epsilon) .running
    (es.filter fun e => e.cor = cor)).isSome

variable {fmt epsilon setup}

theorem InPhase.pending_le {cor : ℕ} {v : CorView} {phase : CallPhase}
    (h : InPhase setup cor v phase) {r : ReplyEntry} (hr : v.entry = some r) :
    r.pendingReplies ≤ 1 := by
  cases h with
  | running hentry => exact (hentry r hr).trans_le zero_le_one
  | asked | answered =>
    obtain rfl := Option.some.inj hr
    exact le_rfl
  | ready =>
    obtain rfl := Option.some.inj hr
    exact zero_le_one

theorem InPhase.addedBack_le {cor : ℕ} {v : CorView} {phase : CallPhase}
    (h : InPhase setup cor v phase) : v.addedBack ≤ 1 := by
  cases h with
  | running | asked | answered => exact zero_le_one
  | ready => exact le_rfl

theorem remoteSearch_runs (hcoros : setup.coros ≤ 11) {server : RPCCore}
    (hconnected : server.Connected setup) {es : List (Event F N)} {s : System}
    (hrun : Run (System.Step fmt epsilon setup) (System.start server) es s) :
    CallsAnswered fmt epsilon setup es s := by
  have hstep : ∀ (s : System) (e : Event F N) (s' : System), s.Sound setup →
      s.Step fmt epsilon setup e s' → s'.Sound setup :=
    fun s e s' h hs => h.moved (hs.moved h hcoros)
  have hsound := hrun.invariant (System.start_sound hconnected) hstep
  refine ⟨fun r hr => ?_, fun m f hm => ?_, List.nodup_iff_count_le_one.mpr fun cor => ?_,
    fun cor => ?_⟩
  · obtain ⟨cor, hcor⟩ := List.mem_iff_getElem?.mp hr
    obtain ⟨phase, hphase⟩ := hsound.phases cor
    exact hphase.pending_le hcor
  · rcases hsound.next hcoros hm with ⟨e, herror⟩ | ⟨_, _, hok, _⟩
    · exact ⟨e, Except.error.inj herror⟩
    · cases hok
  · obtain ⟨phase, hphase⟩ := hsound.phases cor
    exact hphase.addedBack_le
  · obtain ⟨phase, hphase⟩ := (System.start_sound hconnected).phases cor
    have hstart : InPhase setup cor ((System.start server).view cor) .running := by
      obtain ⟨rfl, _, _⟩ := hphase.of_not_paused rfl
      exact hphase
    have hown : ∀ (s : System) (e : Event F N) (s' : System) (phase : CallPhase), s.Sound setup →
        InPhase setup cor (s.view cor) phase → s.Step fmt epsilon setup e s' → e.cor = cor →
        ∃ phase', phase.next fmt epsilon e = some phase' ∧
        InPhase setup cor (s'.view cor) phase' := by
      rintro s e s' phase h hphase hs rfl
      exact (hs.moved h hcoros).own phase hphase
    have hother : ∀ (s : System) (e : Event F N) (s' : System) (phase : CallPhase), s.Sound setup →
        InPhase setup cor (s.view cor) phase → s.Step fmt epsilon setup e s' → e.cor ≠ cor →
        InPhase setup cor (s'.view cor) phase := by
      intro s e s' phase h hphase hs hcor
      rwa [(hs.moved h hcoros).other cor (Ne.symm hcor)]
    obtain ⟨phase', hfollow, _⟩ :=
      hrun.follow_party Event.cor hstep hown hother (System.start_sound hconnected) hstart
    rw [hfollow]
    rfl

/-! ### The steps of a call -/

namespace System.Sound

variable {s : System} {cor : ℕ} {key : Key} {reply : ReplyValue}

theorem step (h : s.Sound setup) (hcoros : setup.coros ≤ 11) {m : Move F N} {e : Event F N}
    {s' : System} (hm : s.next fmt epsilon setup m = some (.ok (e, s'))) {phase : CallPhase}
    (hphase : InPhase setup e.cor (s.view e.cor) phase) :
    s.Step fmt epsilon setup e s' ∧ s'.Sound setup ∧ (∀ c, c ≠ e.cor → s'.view c = s.view c) ∧
      ∃ phase', phase.next fmt epsilon e = some phase' ∧
        InPhase setup e.cor (s'.view e.cor) phase' := by
  have hs : s.Step fmt epsilon setup e s' := ⟨m, hm⟩
  have hmoved := hs.moved h hcoros
  exact ⟨hs, h.moved hmoved, hmoved.other, hmoved.own phase hphase⟩

variable (fmt epsilon N cor) in
theorem calls (h : s.Sound setup) (hcoros : setup.coros ≤ 11) (hcor : 1 ≤ cor ∧ cor ≤ setup.coros)
    (hphase : InPhase setup cor (s.view cor) .running) (key : Key) :
    ∃ s', s.Step fmt epsilon setup (.call cor key : Event F N) s' ∧ s'.Sound setup ∧
      (∀ c, c ≠ cor → s'.view c = s.view c) ∧ InPhase setup cor (s'.view cor) (.asked key) := by
  have hphase₀ := hphase
  generalize hv : s.view cor = v at hphase
  cases hphase with
  | @running entry replyBuf hentry =>
    have hpaused : s.paused cor = false := congrArg CorView.paused hv
    have hlt : cor < s.client.replyStation.length := by
      rw [h.station]
      omega
    have hr := List.getElem?_eq_getElem hlt
    have hstation : s.client.replyStation[cor]? = entry := congrArg CorView.entry hv
    have hnext : s.next fmt epsilon setup (N := N) (.call cor key ⟨0, 0, 0, 0⟩
        ⟨List.replicate sizeofReplyValue 0, List.length_replicate⟩) = _ :=
      next_call hcor hpaused (by omega) hr (hentry _ (hstation.symm.trans hr)) key _ _
    obtain ⟨hs, hsound, hother, phase', hphase', hview⟩ := h.step hcoros hnext hphase₀
    obtain rfl := Option.some.inj hphase'
    exact ⟨_, hs, hsound, hother, hview⟩

theorem serves (h : s.Sound setup) (hcoros : setup.coros ≤ 11)
    (hphase : InPhase setup cor (s.view cor) (.asked key)) {index : RolexIndex F Val N}
    (hreply : getReply fmt epsilon index key = .ok reply) :
    ∃ s', s.Step fmt epsilon setup (.serve cor key index) s' ∧ s'.Sound setup ∧
      (∀ c, c ≠ cor → s'.view c = s.view c) ∧
      InPhase setup cor (s'.view cor) (.answered reply) := by
  have hphase₀ := hphase
  generalize hv : s.view cor = v at hphase
  cases hphase with
  | asked hbuf =>
    obtain ⟨i, hi, hcor⟩ := exists_of_underWay (congrArg CorView.requests hv)
    have hlt : cor < 128 := hcor ▸ Fin.isLt _
    have hnext : s.next fmt epsilon setup (.serve i index ⟨⟨0, 0, 0, 0⟩, ⟨false, 0⟩⟩) = _ :=
      next_serve hi rfl hlt h.session index _
    rw [hreply] at hnext
    obtain ⟨hs, hsound, hother, phase', hphase', hview⟩ := h.step hcoros hnext hphase₀
    rw [CallPhase.next, if_pos rfl, hreply] at hphase'
    obtain rfl := Option.some.inj hphase'
    exact ⟨_, hs, hsound, hother, hview⟩

variable (fmt epsilon N) in
theorem polls (h : s.Sound setup) (hcoros : setup.coros ≤ 11)
    (hphase : InPhase setup cor (s.view cor) (.answered reply)) :
    ∃ s', s.Step fmt epsilon setup (.poll cor true : Event F N) s' ∧ s'.Sound setup ∧
      (∀ c, c ≠ cor → s'.view c = s.view c) ∧ InPhase setup cor (s'.view cor) (.ready reply) := by
  have hphase₀ := hphase
  generalize hv : s.view cor = v at hphase
  cases hphase with
  | @answered _ raw replyBuf hlen =>
    have hentry : s.client.replyStation[cor]? = some (.waiting cor) := congrArg CorView.entry hv
    have hbuf : s.bufs cor = replyBuf := congrArg CorView.replyBuf hv
    obtain ⟨i, hi, _⟩ := exists_of_underWay (congrArg CorView.replies hv)
    have hlt : cor < 128 := by
      have hlt := (List.getElem?_eq_some_iff.mp hentry).1
      rw [h.station] at hlt
      omega
    have hnext : s.next fmt epsilon setup (N := N) (.poll i ⟨⟨0, 0, 0, 0⟩, ⟨false, 0⟩⟩) = _ :=
      next_poll hi rfl rfl hlt hentry (hbuf.symm ▸ hlen) _
    obtain ⟨hs, hsound, hother, phase', hphase', hview⟩ := h.step hcoros hnext hphase₀
    obtain rfl := Option.some.inj hphase'
    exact ⟨_, hs, hsound, hother, hview⟩

variable (fmt epsilon N) in
theorem resumes (h : s.Sound setup) (hcoros : setup.coros ≤ 11)
    (hphase : InPhase setup cor (s.view cor) (.ready reply)) :
    ∃ s', s.Step fmt epsilon setup (.resume cor reply.toBytes : Event F N) s' ∧ s'.Sound setup ∧
      (∀ c, c ≠ cor → s'.view c = s.view c) ∧ InPhase setup cor (s'.view cor) .running := by
  have hphase₀ := hphase
  generalize hv : s.view cor = v at hphase
  cases hphase with
  | ready =>
    have hcount : s.addedBack.count cor = 1 := congrArg CorView.addedBack hv
    have hbuf : s.bufs cor = reply.toBytes := congrArg CorView.replyBuf hv
    have hnext : s.next fmt epsilon setup (N := N) (.resume cor) = _ :=
      next_resume (List.count_pos_iff.mp (hcount.symm ▸ one_pos))
    rw [hbuf] at hnext
    obtain ⟨hs, hsound, hother, phase', hphase', hview⟩ := h.step hcoros hnext hphase₀
    rw [CallPhase.next, if_pos rfl] at hphase'
    obtain rfl := Option.some.inj hphase'
    exact ⟨_, hs, hsound, hother, hview⟩

end System.Sound

def twoCoros : ClientSetup := ⟨2, 0, ⟨0, 0, 0, 0, 0, 0, 1, 0⟩, ⟨0, 0, 0, 0, 0, 0, 2, 0⟩⟩

def emptyWords : RolexIndex ℚ Val 2 :=
  ⟨⟨LeafAllocator.prealloc (fun _ => ⟨[0, 0], [0, 0], rfl, rfl⟩) 200 two_hundred_le,
    emptyIndex.RM.modelAllocator⟩, [], []⟩

/-- Two coroutines search; the second request is served first, and its reply arrives last. The
first coroutine searches again. -/
def twoSearches (index : RolexIndex ℚ Val 2) : List (Event ℚ 2) :=
  [.call 1 5, .call 2 7, .serve 2 7 index, .serve 1 5 index, .poll 1 true,
    .resume 1 (ReplyValue.toBytes ⟨true, 50⟩), .call 1 7, .poll 2 true,
    .resume 2 (ReplyValue.toBytes ⟨false, 1234⟩)]

theorem remoteSearch_runs_two : ∃ server index s, RPCCore.Connected server twoCoros ∧
    Run (System.Step exactFormat 1 twoCoros) (System.start server) (twoSearches index) s ∧
    CallsAnswered exactFormat 1 twoCoros (twoSearches index) s := by
  obtain ⟨index, hindex, h⟩ := exists_ok (p := fun r : RolexIndex ℚ Val 2 =>
      ((r.search exactFormat 1 5).toOption.any fun v => decide (v = some 50)) &&
        (r.search exactFormat 1 7).toOption.any fun v => decide (v = none))
    (by decide +kernel : (emptyWords.train exactFormat 1 noEntries [(5, 50)]).toOption.any _ = true)
  obtain ⟨h₁, h₂⟩ := Bool.and_eq_true_iff.mp h
  obtain ⟨v₁, hsearch₁, hv₁⟩ := exists_ok h₁
  obtain ⟨v₂, hsearch₂, hv₂⟩ := exists_ok h₂
  obtain rfl := of_decide_eq_true hv₁
  obtain rfl := of_decide_eq_true hv₂
  have hreply₁ : getReply exactFormat 1 index 5 = .ok ⟨true, 50⟩ := by
    rw [getReply, hsearch₁]
    rfl
  have hreply₂ : getReply exactFormat 1 index 7 = .ok ⟨false, 1234⟩ := by
    rw [getReply, hsearch₂]
    rfl
  obtain ⟨_, res, _, _, hconnected⟩ :=
    connected_of_connect twoCoros [] () ⟨⟨0, 0, 0, 0⟩, ⟨false, 0⟩⟩ (fun _ => []) 12
    ⟨0, 0, 0, 0⟩
  have hcoros : twoCoros.coros ≤ 11 := by decide
  have hrunning (c : ℕ) : InPhase twoCoros c ((System.start res.core).view c) .running := by
    obtain ⟨phase, hphase⟩ := (System.start_sound hconnected).phases c
    obtain ⟨rfl, _, _⟩ := hphase.of_not_paused rfl
    exact hphase
  obtain ⟨s₁, hs₁, h₁, hother₁, hone₁⟩ :=
    (System.start_sound hconnected).calls 2 exactFormat 1 1 hcoros (by decide) (hrunning 1) 5
  obtain ⟨s₂, hs₂, h₂, hother₂, htwo₂⟩ := h₁.calls 2 exactFormat 1 2 hcoros (by decide)
    ((hother₁ 2 (by decide)).symm ▸ hrunning 2) 7
  obtain ⟨s₃, hs₃, h₃, hother₃, htwo₃⟩ := h₂.serves hcoros htwo₂ hreply₂
  obtain ⟨s₄, hs₄, h₄, hother₄, hone₄⟩ := h₃.serves hcoros
    ((hother₃ 1 (by decide)).symm ▸ (hother₂ 1 (by decide)).symm ▸ hone₁) hreply₁
  obtain ⟨s₅, hs₅, h₅, hother₅, hone₅⟩ := h₄.polls 2 exactFormat 1 hcoros hone₄
  obtain ⟨s₆, hs₆, h₆, hother₆, hone₆⟩ := h₅.resumes 2 exactFormat 1 hcoros hone₅
  obtain ⟨s₇, hs₇, h₇, hother₇, _⟩ := h₆.calls 2 exactFormat 1 1 hcoros (by decide) hone₆ 7
  have htwo₇ : InPhase twoCoros 2 (s₇.view 2) (.answered ⟨false, 1234⟩) := by
    rw [hother₇ 2 (by decide), hother₆ 2 (by decide), hother₅ 2 (by decide), hother₄ 2 (by decide)]
    exact htwo₃
  obtain ⟨s₈, hs₈, h₈, _, htwo₈⟩ := h₇.polls 2 exactFormat 1 hcoros htwo₇
  obtain ⟨s₉, hs₉, _⟩ := h₈.resumes 2 exactFormat 1 hcoros htwo₈
  have hrun : Run (System.Step exactFormat 1 twoCoros) (System.start res.core) (twoSearches index)
      s₉ :=
    Run.start.step hs₁ |>.step hs₂ |>.step hs₃ |>.step hs₄ |>.step hs₅ |>.step hs₆ |>.step hs₇
      |>.step hs₈ |>.step hs₉
  exact ⟨res.core, index, s₉, hconnected, hrun, remoteSearch_runs hcoros hconnected hrun⟩

end Rolex
