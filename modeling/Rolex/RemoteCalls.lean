import Rolex.Foundations.Mailbox
import Rolex.RemoteOps

/-!
Several client workers whose coroutines make any of the five remote calls, and one server worker,
which holds the index. A datagram is delivered at most once and in any order.
-/

namespace Rolex
open Bytes Histories Mailbox

/-- A client worker: its RPC core, the reply buffers of its coroutines, the calls they are paused
in, and the coroutines that are added back. -/
structure RemoteClient where
  core : RPCCore
  bufs : ReplyBufs
  calling : ℕ → Option RemoteOp
  addedBack : List ℕ

def RemoteClient.start : RemoteClient := ⟨RPCCore.construct 12, fun _ => [], fun _ => none, []⟩

/-- The client workers `ι`, the server worker, and the datagrams under way to it and from it. -/
structure RemoteSystem (ι F : Type) (N : ℕ) where
  clients : ι → RemoteClient
  server : RPCCore
  index : RolexIndex F Val N
  toServer : List Packet
  fromServer : List Packet

def RemoteSystem.start {ι F : Type} {N : ℕ} (server : RPCCore) (index : RolexIndex F Val N) :
    RemoteSystem ι F N :=
  ⟨fun _ => .start, server, index, [], []⟩

/-- A coroutine runs a call up to its pause, the server handles a datagram, the future of a client
handles one, or the scheduler of a client resumes a coroutine. -/
inductive RemoteMove (ι : Type) where
  | call (i : ι) (cor : ℕ) (op : RemoteOp) (raw : Header)
      (replyBuf : {bs : List Byte // bs.length = sizeofReplyValue})
  | serve (n : ℕ) (u : Uninit)
  | poll (i : ι) (n : ℕ) (u : Uninit)
  | resume (i : ι) (cor : ℕ)

abbrev Caller := Fin (2 ^ 32) × ℕ

/-- What a step shows. `ans` is what the caller will read in the reply, `result` what the call
returns. -/
inductive RemoteEvent where
  | call (caller : Caller) (op : RemoteOp)
  | serve (caller : Caller) (op : RemoteOp) (ans : Option Val)
  | poll (caller : Caller) (addedBack : Bool)
  | resume (caller : Caller) (result : Option Val)
  deriving DecidableEq, Repr

def RemoteEvent.caller : RemoteEvent → Caller
  | call caller _ => caller
  | serve caller _ _ => caller
  | poll caller _ => caller
  | resume caller _ => caller

section System

variable {ι F : Type} {N : ℕ} [DecidableEq ι] (fmt : DoubleFormat F) (epsilon : ℕ)
  (setup : ι → ClientSetup)

def RemoteSystem.next (s : RemoteSystem ι F N) :
    RemoteMove ι → Option (Except RpcFault (RemoteEvent × RemoteSystem ι F N))
  | .call i cor op raw replyBuf =>
    let c := s.clients i
    if 1 ≤ cor ∧ cor ≤ (setup i).coros ∧ c.calling cor = none then
      some do
        let res ← op.start cor raw c.core.replyStation
        .ok (.call ((setup i).threadId, cor) op, { s with
          clients := Function.update s.clients i { c with
            core := { c.core with replyStation := res.1 }
            bufs := Function.update c.bufs cor replyBuf.1
            calling := Function.update c.calling cor (some op) }
          toServer := s.toServer ++ [(setup i).sender.sendUnsignaled res.2] })
    else none
  | .serve n u =>
    s.toServer[n]?.map fun p => do
      let res ← receive false (serverCallbacks fmt epsilon) s.index u s.server (fun _ => []) p
      let op := RemoteOp.ofRequest p.msg
      .ok (.serve (p.immData, p.msg.header.corId) op (res.sent.bind fun q => op.result q.msg.body),
        { s with
        server := res.core
        index := res.shared
        toServer := s.toServer.eraseIdx n
        fromServer := s.fromServer ++ res.sent.toList })
  | .poll i n u =>
    let c := s.clients i
    (s.fromServer[n]?.filter fun p => p.dest = (setup i).attr).map fun p => do
      let res ← receive true [] () u c.core c.bufs p
      .ok (.poll ((setup i).threadId, p.msg.header.corId) res.addback.isSome, { s with
        clients := Function.update s.clients i { c with
          core := res.core
          bufs := res.bufs
          addedBack := c.addedBack ++ res.addback.toList }
        fromServer := s.fromServer.eraseIdx n })
  | .resume i cor =>
    let c := s.clients i
    if cor ∈ c.addedBack then
      let result := (c.calling cor).bind fun op => op.result (c.bufs cor)
      some (.ok (.resume ((setup i).threadId, cor) result, { s with
        clients := Function.update s.clients i { c with
          calling := Function.update c.calling cor none
          addedBack := c.addedBack.erase cor } }))
    else none

def RemoteSystem.Step (s : RemoteSystem ι F N) (e : RemoteEvent) (s' : RemoteSystem ι F N) : Prop :=
  ∃ m, s.next fmt epsilon setup m = some (.ok (e, s'))

end System

/-! ### A call, abstractly -/

inductive RemotePhase where
  | running
  | asked (op : RemoteOp)
  | answered (ans : Option Val)
  | ready (ans : Option Val)
  deriving DecidableEq, Repr

/-- Every call is served once between its start and its return, and returns what it was served
with. -/
def RemotePhase.next : RemotePhase → RemoteEvent → Option RemotePhase
  | .running, .call _ op => some (.asked op)
  | .asked op, .serve _ op' ans => if op' = op then some (.answered ans) else none
  | .answered ans, .poll _ true => some (.ready ans)
  | .ready ans, .resume _ result => if result = ans then some .running else none
  | _, _ => none

/-! ### One coroutine -/

structure CallerView where
  calling : Option RemoteOp
  entry : Option ReplyEntry
  requests : List Packet
  replies : List Packet
  addedBack : ℕ
  replyBuf : List Byte

def RemoteClient.view (x : RemoteClient) (cor : ℕ) (requests replies : List Packet) : CallerView :=
  ⟨x.calling cor, x.core.replyStation[cor]?, requests, replies, x.addedBack.count cor, x.bufs cor⟩

def Packet.from (p : Packet) : Caller := (p.immData, p.msg.header.corId)

def Packet.to (p : Packet) : QPAttr × ℕ := (p.dest, p.msg.header.corId)

section Views

variable {ι F : Type} {N : ℕ} [DecidableEq ι] (setup : ι → ClientSetup)

def RemoteSystem.view (s : RemoteSystem ι F N) (i : ι) (cor : ℕ) : CallerView :=
  (s.clients i).view cor (mail Packet.from ((setup i).threadId, cor) s.toServer)
    (mail Packet.to ((setup i).attr, cor) s.fromServer)

inductive InCall (c : ClientSetup) (cor : ℕ) : CallerView → RemotePhase → Prop where
  | running {entry : Option ReplyEntry} {replyBuf : List Byte} (hentry : ∀ r, entry = some r →
      r.pendingReplies = 0) : InCall c cor ⟨none, entry, [], [], 0, replyBuf⟩ .running
  | asked {op : RemoteOp} {replyBuf : List Byte} (hbuf : replyBuf.length = sizeofReplyValue) :
      InCall c cor ⟨some op, some (.waiting cor),
      [c.sender.sendUnsignaled (requestMessage op.rpcId op.args cor)], [], 0,
        replyBuf⟩ (.asked op)
  | answered {op : RemoteOp} {reply : ReplyValue} {raw : Header} {replyBuf : List Byte}
      (hbuf : replyBuf.length = sizeofReplyValue) :
      InCall c cor ⟨some op, some (.waiting cor), [],
        [c.session.sendUnsignaled (replyMessage reply raw (Fin.ofNat _ cor))], 0, replyBuf⟩
        (.answered (op.result reply.toBytes))
  | ready {op : RemoteOp} {replyBuf : List Byte} :
      InCall c cor ⟨some op, some (.filled cor), [], [], 1, replyBuf⟩ (.ready (op.result replyBuf))

variable {c : ClientSetup} {cor : ℕ} {v : CallerView} {phase : RemotePhase}

theorem InCall.of_not_calling (h : InCall c cor v phase) (hp : v.calling = none) :
    phase = .running ∧ v = ⟨none, v.entry, [], [], 0, v.replyBuf⟩ ∧ ∀ r, v.entry = some r →
    r.pendingReplies = 0 := by
  cases h with
  | running hentry => exact ⟨rfl, rfl, hentry⟩
  | asked | answered | ready => cases hp

theorem InCall.of_mem_requests (h : InCall c cor v phase) {p : Packet} (hp : p ∈ v.requests) :
    ∃ op, phase = .asked op ∧ v = ⟨some op, some (.waiting cor),
      [c.sender.sendUnsignaled (requestMessage op.rpcId op.args cor)], [], 0, v.replyBuf⟩ ∧
      v.replyBuf.length = sizeofReplyValue := by
  cases h with
  | asked hbuf => exact ⟨_, rfl, rfl, hbuf⟩
  | running | answered | ready => cases hp

theorem InCall.of_mem_replies (h : InCall c cor v phase) {p : Packet} (hp : p ∈ v.replies) :
    ∃ op reply raw, phase = .answered (RemoteOp.result op (ReplyValue.toBytes reply)) ∧
      v = ⟨some op, some (.waiting cor), [],
        [c.session.sendUnsignaled (replyMessage reply raw (Fin.ofNat _ cor))], 0, v.replyBuf⟩ ∧
      v.replyBuf.length = sizeofReplyValue := by
  cases h with
  | answered hbuf => exact ⟨_, _, _, rfl, rfl, hbuf⟩
  | running | asked | ready => cases hp

theorem InCall.of_addedBack (h : InCall c cor v phase) (hp : v.addedBack ≠ 0) :
    ∃ op, phase = .ready (RemoteOp.result op v.replyBuf) ∧
      v = ⟨some op, some (.filled cor), [], [], 1, v.replyBuf⟩ := by
  cases h with
  | ready => exact ⟨_, rfl, rfl⟩
  | running | asked | answered => exact absurd rfl hp

theorem InCall.unique {phase' : RemotePhase} (h : InCall c cor v phase)
    (h' : InCall c cor v phase') : phase' = phase := by
  generalize hv : v = v' at h'
  cases h with
  | running =>
    obtain ⟨rfl, _, _⟩ := h'.of_not_calling (hv ▸ rfl)
    rfl
  | asked =>
    subst hv
    obtain ⟨op', rfl, hv, _⟩ := h'.of_mem_requests (List.mem_singleton_self _)
    exact congrArg RemotePhase.asked (Option.some.inj (congrArg CallerView.calling hv)).symm
  | @answered op reply =>
    subst hv
    obtain ⟨op', reply', _, rfl, hv, _⟩ := h'.of_mem_replies (List.mem_singleton_self _)
    obtain rfl := Option.some.inj (congrArg CallerView.calling hv)
    have hbody : reply.toBytes = reply'.toBytes :=
      congrArg (fun p => p.msg.body) (List.singleton_inj.mp (congrArg CallerView.replies hv))
    rw [hbody]
  | ready =>
    subst hv
    obtain ⟨op', rfl, hv⟩ := h'.of_addedBack one_ne_zero
    obtain rfl := Option.some.inj (congrArg CallerView.calling hv)
    rfl

end Views

section Steps

variable {ι F : Type} {N : ℕ} [DecidableEq ι] (fmt : DoubleFormat F) (epsilon : ℕ)
  (setup : ι → ClientSetup)

/-- No two client workers have a thread id or a queue pair in common, and their coroutines have
entries. -/
structure DistinctClients (setup : ι → ClientSetup) : Prop where
  coros : ∀ i, (setup i).coros ≤ 11
  threadId : Function.Injective fun i => (setup i).threadId
  attr : Function.Injective fun i => (setup i).attr

structure RemoteSystem.Sound (s : RemoteSystem ι F N) : Prop where
  station : ∀ i, (s.clients i).core.replyStation.length = 12
  sessions : ∀ i, s.server.Connected (setup i)
  senders : ∀ p ∈ s.toServer, ∃ i, p.immData = (setup i).threadId
  phases : ∀ i cor, ∃ phase, InCall (setup i) cor (s.view setup i cor) phase

def RemoteEvent.Applies (index : RolexIndex F Val N) : RemoteEvent → RolexIndex F Val N → Prop
  | .serve _ op ans, index' => op.apply fmt epsilon index = .ok (ans, index')
  | _, index' => index' = index

/-- A step takes the coroutine of its event to its next phase, and changes nothing of the others. -/
structure RemoteMoved (s : RemoteSystem ι F N) (e : RemoteEvent)
    (s' : RemoteSystem ι F N) : Prop where
  station : ∀ i, (s'.clients i).core.replyStation.length = (s.clients i).core.replyStation.length
  server : s'.server = s.server
  senders : ∀ p ∈ s'.toServer, p ∈ s.toServer ∨ ∃ i, p.immData = (setup i).threadId
  index : e.Applies fmt epsilon s.index s'.index
  other : ∀ i cor, ((setup i).threadId, cor) ≠ e.caller → s'.view setup i cor = s.view setup i cor
  own : ∀ i cor, ((setup i).threadId, cor) = e.caller →
    ∀ phase, InCall (setup i) cor (s.view setup i cor) phase →
    ∃ phase', phase.next e = some phase' ∧ InCall (setup i) cor (s'.view setup i cor) phase'

namespace RemoteClient

variable (x : RemoteClient) (cor : ℕ)

def called (op : RemoteOp) (replyBuf : List Byte) : RemoteClient := { x with
  core := { x.core with replyStation := x.core.replyStation.set cor (.waiting cor) }
  bufs := Function.update x.bufs cor replyBuf
  calling := Function.update x.calling cor (some op) }

def polled (reply : ReplyValue) : RemoteClient := { x with
  core := { x.core with replyStation := x.core.replyStation.set cor (.filled cor) }
  bufs := Function.update x.bufs cor reply.toBytes
  addedBack := x.addedBack ++ [cor] }

def resumed : RemoteClient := { x with
  calling := Function.update x.calling cor none
  addedBack := x.addedBack.erase cor }

structure SameBut (x y : RemoteClient) (cor : ℕ) : Prop where
  station : y.core.replyStation.length = x.core.replyStation.length
  view : ∀ c, c ≠ cor → ∀ requests replies, y.view c requests replies = x.view c requests replies

theorem called_sameBut (op : RemoteOp) (replyBuf : List Byte) :
    x.SameBut (x.called cor op replyBuf) cor := by
  refine ⟨List.length_set, fun c hc requests replies => ?_⟩
  rw [RemoteClient.view, called]
  dsimp only
  rw [Function.update_of_ne hc, Function.update_of_ne hc, List.getElem?_set_ne hc.symm,
    RemoteClient.view]

theorem polled_sameBut (reply : ReplyValue) : x.SameBut (x.polled cor reply) cor := by
  refine ⟨List.length_set, fun c hc requests replies => ?_⟩
  rw [RemoteClient.view, polled]
  dsimp only
  rw [Function.update_of_ne hc, List.getElem?_set_ne hc.symm, List.count_append,
    List.count_singleton, if_neg (by simpa using hc.symm), Nat.add_zero, RemoteClient.view]

theorem resumed_sameBut : x.SameBut (x.resumed cor) cor := by
  refine ⟨rfl, fun c hc requests replies => ?_⟩
  rw [RemoteClient.view, resumed]
  dsimp only
  rw [Function.update_of_ne hc, List.count_erase_of_ne hc, RemoteClient.view]

end RemoteClient

namespace RemoteSystem

variable (s : RemoteSystem ι F N)

def called (i : ι) (cor : ℕ) (op : RemoteOp) (replyBuf : List Byte) : RemoteSystem ι F N := { s with
  clients := Function.update s.clients i ((s.clients i).called cor op replyBuf)
  toServer := s.toServer ++
    [(setup i).sender.sendUnsignaled (requestMessage op.rpcId op.args cor)] }

def served (n : ℕ) (index : RolexIndex F Val N) (sent : Packet) : RemoteSystem ι F N := { s with
  index := index
  toServer := s.toServer.eraseIdx n
  fromServer := s.fromServer ++ [sent] }

def polled (i : ι) (n cor : ℕ) (reply : ReplyValue) : RemoteSystem ι F N := { s with
  clients := Function.update s.clients i ((s.clients i).polled cor reply)
  fromServer := s.fromServer.eraseIdx n }

def resumed (i : ι) (cor : ℕ) : RemoteSystem ι F N := { s with
  clients := Function.update s.clients i ((s.clients i).resumed cor) }

variable {s fmt epsilon setup}

theorem next_call {i : ι} {cor : ℕ} (hle : 1 ≤ cor ∧ cor ≤ (setup i).coros)
    (hcalling : (s.clients i).calling cor = none) (hlt : cor < 128) {r : ReplyEntry}
    (hr : (s.clients i).core.replyStation[cor]? = some r) (hp : r.pendingReplies = 0)
    (op : RemoteOp) (raw : Header) (replyBuf : {bs : List Byte // bs.length = sizeofReplyValue}) :
    s.next fmt epsilon setup (.call i cor op raw replyBuf) =
      some (.ok (.call ((setup i).threadId, cor) op, s.called setup i cor op replyBuf.1)) := by
  rw [next]
  dsimp only
  rw [if_pos ⟨hle.1, hle.2, hcalling⟩, op.start_ok hlt hr hp]
  rfl

variable (setup) in
theorem next_serve_ok {n : ℕ} {p : Packet} (hp : s.toServer[n]? = some p) {cor : ℕ} {op : RemoteOp}
    (hmsg : p.msg = requestMessage op.rpcId op.args cor) (hlt : cor < 128) {replyc : UDSession}
    (hsession : s.server.incomingSesions p.immData = some (some replyc)) {ans : Option Val}
    {index : RolexIndex F Val N} (happly : op.apply fmt epsilon s.index = .ok (ans, index))
    (u : Uninit) : ∃ reply : ReplyValue, op.result reply.toBytes = ans ∧
    s.next fmt epsilon setup (.serve n u) =
      some (.ok (.serve (p.immData, cor) op ans,
        s.served n index (replyc.sendUnsignaled
          (replyMessage reply u.header (Fin.ofNat _ cor))))) := by
  have hcor : p.msg.header.corId.val = cor := by
    rw [hmsg]
    exact Nat.mod_eq_of_lt hlt
  obtain ⟨reply, hcallback, hresult⟩ := op.callback_of_apply_ok happly u.reply
  have hop : RemoteOp.ofRequest p.msg = op := by
    rw [hmsg]
    exact op.ofRequest_requestMessage cor
  refine ⟨reply, hresult, ?_⟩
  rw [next, hp, Option.map_some, op.receive_request hmsg hsession, hcallback, ok_bind, ok_bind,
    hcor, hop, ← hresult]
  rfl

theorem next_serve_error {n : ℕ} {p : Packet} (hp : s.toServer[n]? = some p) {cor : ℕ}
    {op : RemoteOp} (hmsg : p.msg = requestMessage op.rpcId op.args cor) {replyc : UDSession}
    (hsession : s.server.incomingSesions p.immData = some (some replyc)) {e : Fault}
    (happly : op.apply fmt epsilon s.index = .error e) (u : Uninit) :
    s.next fmt epsilon setup (.serve n u) = some (.error (.index e)) := by
  rw [next, hp, Option.map_some, op.receive_request hmsg hsession,
    op.callback_of_apply_error happly]
  rfl

theorem next_poll {i : ι} {n : ℕ} {p : Packet} (hp : s.fromServer[n]? = some p)
    (hdest : p.dest = (setup i).attr) {cor : ℕ} {reply : ReplyValue} {raw : Header}
    (hmsg : p.msg = replyMessage reply raw (Fin.ofNat _ cor)) (hlt : cor < 128)
    (hr : (s.clients i).core.replyStation[cor]? = some (.waiting cor))
    (hbuf : ((s.clients i).bufs cor).length = sizeofReplyValue) (u : Uninit) :
    s.next fmt epsilon setup (.poll i n u) =
      some (.ok (.poll ((setup i).threadId, cor) true, s.polled i n cor reply)) := by
  obtain ⟨hfilter, hcor, hreceive⟩ := receive_arrived hp hdest hmsg hlt hr hbuf
  rw [next, hfilter, Option.map_some, hreceive, hcor]
  rfl

theorem next_resume {i : ι} {cor : ℕ} (h : cor ∈ (s.clients i).addedBack) {op : RemoteOp}
    (hop : (s.clients i).calling cor = some op) : s.next fmt epsilon setup (.resume i cor) =
      some (.ok (.resume ((setup i).threadId, cor) (op.result ((s.clients i).bufs cor)),
        s.resumed i cor)) := by
  rw [next]
  dsimp only
  rw [if_pos h, hop]
  rfl

end RemoteSystem

/-! ### One step -/

theorem Packet.from_request (c : ClientSetup) (op : RemoteOp) {cor : ℕ} (hlt : cor < 128) :
    (c.sender.sendUnsignaled (requestMessage op.rpcId op.args cor)).from = (c.threadId, cor) :=
  Prod.ext rfl (Nat.mod_eq_of_lt hlt)

theorem Packet.to_reply (c : ClientSetup) (reply : ReplyValue) (raw : Header) {cor : ℕ}
    (hlt : cor < 128) : (c.session.sendUnsignaled (replyMessage reply raw (Fin.ofNat _ cor))).to =
    (c.attr, cor) :=
  Prod.ext rfl (Nat.mod_eq_of_lt hlt)

section Update

variable {s : RemoteSystem ι F N} {i : ι} {x : RemoteClient} {cor : ℕ}

theorem RemoteClient.SameBut.length_update (h : (s.clients i).SameBut x cor) (j : ι) :
    (Function.update s.clients i x j).core.replyStation.length =
    (s.clients j).core.replyStation.length := by
  by_cases hj : j = i
  · subst hj
    rw [Function.update_self, h.station]
  · rw [Function.update_of_ne hj]

theorem RemoteClient.SameBut.view_update (h : (s.clients i).SameBut x cor) {j : ι} {c : ℕ}
    (hne : (j, c) ≠ (i, cor)) (requests replies : List Packet) :
    (Function.update s.clients i x j).view c requests replies =
    (s.clients j).view c requests replies := by
  by_cases hj : j = i
  · subst hj
    rw [Function.update_self, h.view c (fun hc => hne (hc ▸ rfl))]
  · rw [Function.update_of_ne hj]

end Update

namespace RemoteSystem.Sound

variable {s : RemoteSystem ι F N} {fmt : DoubleFormat F} {epsilon : ℕ} {setup : ι → ClientSetup}
  {res : Except RpcFault (RemoteEvent × RemoteSystem ι F N)}

theorem call (h : s.Sound setup) (hc : DistinctClients setup) {i : ι} {cor : ℕ} {op : RemoteOp}
    {raw : Header} {replyBuf : {bs : List Byte // bs.length = sizeofReplyValue}}
    (hm : s.next fmt epsilon setup (.call i cor op raw replyBuf) = some res) :
    ∃ e s', res = .ok (e, s') ∧ RemoteMoved fmt epsilon setup s e s' := by
  have hcall : 1 ≤ cor ∧ cor ≤ (setup i).coros ∧ (s.clients i).calling cor = none := by
    by_contra hcall
    rw [next] at hm
    dsimp only at hm
    rw [if_neg hcall] at hm
    cases hm
  obtain ⟨hone, hle, hcalling⟩ := hcall
  have hcoros := hc.coros i
  have hlt₁₂₈ : cor < 128 := by omega
  obtain ⟨phase, hphase₀⟩ := h.phases i cor
  obtain ⟨rfl, hv, hentry⟩ := hphase₀.of_not_calling hcalling
  have hlt : cor < (s.clients i).core.replyStation.length := by
    rw [h.station]
    omega
  have hr := List.getElem?_eq_getElem hlt
  rw [next_call ⟨hone, hle⟩ hcalling hlt₁₂₈ hr (hentry _ hr)] at hm
  have hfrom := Packet.from_request (setup i) op hlt₁₂₈
  have hsame := (s.clients i).called_sameBut cor op replyBuf.1
  refine ⟨_, _, (Option.some.inj hm).symm, hsame.length_update, rfl, fun p hp => ?_, rfl,
    fun j c hne => ?_, fun j c heq phase hphase => ?_⟩
  · rcases List.mem_append.mp hp with hp | hp
    · exact Or.inl hp
    · obtain rfl := List.mem_singleton.mp hp
      exact Or.inr ⟨i, rfl⟩
  · have hne' : (j, c) ≠ (i, cor) := fun hjc => by
      obtain ⟨rfl, rfl⟩ := Prod.mk.inj hjc
      exact hne rfl
    rw [view, called]
    dsimp only
    rw [mail_concat_ne (by rw [hfrom]; exact hne.symm), hsame.view_update hne', view]
  · obtain ⟨hid, rfl⟩ := Prod.mk.inj heq
    obtain rfl := hc.threadId hid
    rw [hphase₀.unique hphase]
    refine ⟨.asked op, rfl, ?_⟩
    have hrequests : mail Packet.from ((setup j).threadId, c) s.toServer = [] :=
      congrArg CallerView.requests hv
    have hreplies : mail Packet.to ((setup j).attr, c) s.fromServer = [] :=
      congrArg CallerView.replies hv
    have hcount : (s.clients j).addedBack.count c = 0 := congrArg CallerView.addedBack hv
    rw [view, called]
    dsimp only
    rw [Function.update_self, mail_concat_self hfrom, hrequests, hreplies, RemoteClient.view,
      RemoteClient.called]
    dsimp only
    rw [Function.update_self, Function.update_self, List.getElem?_set_self hlt, hcount,
      List.nil_append]
    exact .asked replyBuf.2

theorem serve (h : s.Sound setup) (hc : DistinctClients setup) {n : ℕ} {u : Uninit}
    (hm : s.next fmt epsilon setup (.serve n u) = some res) :
    (∃ e, res = .error (.index e)) ∨ ∃ e s', res = .ok (e, s') ∧
    RemoteMoved fmt epsilon setup s e s' := by
  obtain ⟨p, hp, _⟩ := Option.map_eq_some_iff.mp hm
  obtain ⟨i, hi⟩ := h.senders p (List.mem_of_getElem? hp)
  obtain ⟨cor, hcor⟩ : ∃ cor, p.msg.header.corId.val = cor := ⟨_, rfl⟩
  have hlt : cor < 128 := hcor ▸ p.msg.header.corId.isLt
  have hfrom : p.from = ((setup i).threadId, cor) := Prod.ext hi hcor
  obtain ⟨phase, hphase₀⟩ := h.phases i cor
  obtain ⟨op, rfl, hv, hbuf⟩ := hphase₀.of_mem_requests (mem_mail hp hfrom)
  obtain ⟨hpq, herased⟩ := mail_eraseIdx_self hp hfrom (congrArg CallerView.requests hv)
  have hmsg : p.msg = requestMessage op.rpcId op.args cor := congrArg Packet.msg hpq
  have hsession : s.server.incomingSesions p.immData = some (some (setup i).session) := by
    rw [hi]
    exact h.sessions i
  cases happly : op.apply fmt epsilon s.index with
  | error e =>
    rw [next_serve_error hp hmsg hsession happly] at hm
    exact Or.inl ⟨e, (Option.some.inj hm).symm⟩
  | ok r =>
    obtain ⟨ans, index⟩ := r
    obtain ⟨reply, hresult, hnext⟩ := next_serve_ok setup hp hmsg hlt hsession happly u
    rw [hnext] at hm
    have hto := Packet.to_reply (setup i) reply u.header hlt
    refine Or.inr ⟨_, _, (Option.some.inj hm).symm, fun _ => rfl, rfl,
      fun q hq => Or.inl (List.mem_of_mem_eraseIdx hq), happly, fun j c hne => ?_,
      fun j c heq phase hphase => ?_⟩
    · have hne : ((setup j).threadId, c) ≠ ((setup i).threadId, cor) := hi ▸ hne
      have hne' : ((setup i).attr, cor) ≠ ((setup j).attr, c) := fun hjc => hne (by
        obtain ⟨hattr, rfl⟩ := Prod.mk.inj hjc
        rw [hc.attr hattr])
      rw [view, served]
      dsimp only
      rw [mail_eraseIdx_ne hp (by rw [hfrom]; exact hne.symm),
        mail_concat_ne (by rw [hto]; exact hne'), view]
    · obtain ⟨hid, rfl⟩ := Prod.mk.inj heq
      obtain rfl := hc.threadId (hid.trans hi)
      rw [hphase₀.unique hphase]
      refine ⟨.answered ans, if_pos rfl, ?_⟩
      have hcalling : (s.clients j).calling c = some op := congrArg CallerView.calling hv
      have hentry : (s.clients j).core.replyStation[c]? = some (.waiting c) :=
        congrArg CallerView.entry hv
      have hreplies : mail Packet.to ((setup j).attr, c) s.fromServer = [] :=
        congrArg CallerView.replies hv
      have hcount : (s.clients j).addedBack.count c = 0 := congrArg CallerView.addedBack hv
      rw [view, served]
      dsimp only
      rw [herased, mail_concat_self hto, hreplies, RemoteClient.view, hcalling, hentry, hcount,
        List.nil_append, ← hresult]
      exact .answered hbuf

theorem poll (h : s.Sound setup) (hc : DistinctClients setup) {i : ι} {n : ℕ} {u : Uninit}
    (hm : s.next fmt epsilon setup (.poll i n u) = some res) :
    ∃ e s', res = .ok (e, s') ∧ RemoteMoved fmt epsilon setup s e s' := by
  obtain ⟨p, hp, _⟩ := Option.map_eq_some_iff.mp hm
  obtain ⟨hp, hdest⟩ := Option.filter_eq_some_iff.mp hp
  have hdest : p.dest = (setup i).attr := of_decide_eq_true hdest
  obtain ⟨cor, hcor⟩ : ∃ cor, p.msg.header.corId.val = cor := ⟨_, rfl⟩
  have hlt : cor < 128 := hcor ▸ p.msg.header.corId.isLt
  have hto : p.to = ((setup i).attr, cor) := Prod.ext hdest hcor
  obtain ⟨phase, hphase₀⟩ := h.phases i cor
  obtain ⟨op, reply, raw, rfl, hv, hbuf⟩ := hphase₀.of_mem_replies (mem_mail hp hto)
  obtain ⟨hpq, herased⟩ := mail_eraseIdx_self hp hto (congrArg CallerView.replies hv)
  have hmsg : p.msg = replyMessage reply raw (Fin.ofNat _ cor) := congrArg Packet.msg hpq
  have hentry : (s.clients i).core.replyStation[cor]? = some (.waiting cor) :=
    congrArg CallerView.entry hv
  rw [next_poll hp hdest hmsg hlt hentry hbuf] at hm
  have hsame := (s.clients i).polled_sameBut cor reply
  refine ⟨_, _, (Option.some.inj hm).symm, hsame.length_update, rfl, fun q hq => Or.inl hq, rfl,
    fun j c hne => ?_, fun j c heq phase hphase => ?_⟩
  · have hne : ((setup j).threadId, c) ≠ ((setup i).threadId, cor) := hne
    have hne' : (j, c) ≠ (i, cor) := fun hjc => by
      obtain ⟨rfl, rfl⟩ := Prod.mk.inj hjc
      exact hne rfl
    have hne'' : p.to ≠ ((setup j).attr, c) := fun hjc => hne (by
      obtain ⟨hattr, rfl⟩ := Prod.mk.inj (hto.symm.trans hjc)
      rw [hc.attr hattr])
    rw [view, polled]
    dsimp only
    rw [mail_eraseIdx_ne hp hne'', hsame.view_update hne', view]
  · obtain ⟨hid, rfl⟩ := Prod.mk.inj heq
    obtain rfl := hc.threadId hid
    rw [hphase₀.unique hphase]
    refine ⟨.ready (op.result reply.toBytes), rfl, ?_⟩
    have hcalling : (s.clients j).calling c = some op := congrArg CallerView.calling hv
    have hrequests : mail Packet.from ((setup j).threadId, c) s.toServer = [] :=
      congrArg CallerView.requests hv
    have hcount : (s.clients j).addedBack.count c = 0 := congrArg CallerView.addedBack hv
    rw [view, polled]
    dsimp only
    rw [Function.update_self, hrequests, herased, RemoteClient.view, RemoteClient.polled]
    dsimp only
    rw [Function.update_self, List.getElem?_set_self (List.getElem?_eq_some_iff.mp hentry).1,
      hcalling, List.count_append, hcount, List.count_singleton_self]
    exact .ready

theorem resume (h : s.Sound setup) (hc : DistinctClients setup) {i : ι} {cor : ℕ}
    (hm : s.next fmt epsilon setup (.resume i cor) = some res) :
    ∃ e s', res = .ok (e, s') ∧ RemoteMoved fmt epsilon setup s e s' := by
  have hmem : cor ∈ (s.clients i).addedBack := by
    by_contra hmem
    rw [next] at hm
    dsimp only at hm
    rw [if_neg hmem] at hm
    cases hm
  obtain ⟨phase, hphase₀⟩ := h.phases i cor
  obtain ⟨op, rfl, hv⟩ := hphase₀.of_addedBack (List.count_pos_iff.mpr hmem).ne'
  have hcalling : (s.clients i).calling cor = some op := congrArg CallerView.calling hv
  rw [next_resume hmem hcalling] at hm
  have hsame := (s.clients i).resumed_sameBut cor
  refine ⟨_, _, (Option.some.inj hm).symm, hsame.length_update, rfl, fun q hq => Or.inl hq, rfl,
    fun j c hne => ?_, fun j c heq phase hphase => ?_⟩
  · have hne' : (j, c) ≠ (i, cor) := fun hjc => by
      obtain ⟨rfl, rfl⟩ := Prod.mk.inj hjc
      exact hne rfl
    rw [view, resumed]
    dsimp only
    rw [hsame.view_update hne', view]
  · obtain ⟨hid, rfl⟩ := Prod.mk.inj heq
    obtain rfl := hc.threadId hid
    rw [hphase₀.unique hphase]
    refine ⟨.running, if_pos rfl, ?_⟩
    have hentry : (s.clients j).core.replyStation[c]? = some (.filled c) :=
      congrArg CallerView.entry hv
    have hrequests : mail Packet.from ((setup j).threadId, c) s.toServer = [] :=
      congrArg CallerView.requests hv
    have hreplies : mail Packet.to ((setup j).attr, c) s.fromServer = [] :=
      congrArg CallerView.replies hv
    have hcount : (s.clients j).addedBack.count c = 1 := congrArg CallerView.addedBack hv
    rw [view, resumed]
    dsimp only
    rw [Function.update_self, hrequests, hreplies, RemoteClient.view, RemoteClient.resumed]
    dsimp only
    rw [Function.update_self, hentry, List.count_erase_self, hcount]
    refine .running fun r hr => ?_
    obtain rfl := Option.some.inj hr
    rfl

theorem next (h : s.Sound setup) (hc : DistinctClients setup) {m : RemoteMove ι}
    (hm : s.next fmt epsilon setup m = some res) :
    (∃ e, res = .error (.index e)) ∨ ∃ e s', res = .ok (e, s') ∧
    RemoteMoved fmt epsilon setup s e s' := by
  cases m with
  | call i cor op raw replyBuf => exact Or.inr (h.call hc hm)
  | serve n u => exact h.serve hc hm
  | poll i n u => exact Or.inr (h.poll hc hm)
  | resume i cor => exact Or.inr (h.resume hc hm)

omit [DecidableEq ι] in
theorem moved (h : s.Sound setup) {e : RemoteEvent} {s' : RemoteSystem ι F N}
    (hmoved : RemoteMoved fmt epsilon setup s e s') : s'.Sound setup where
  station := fun i => (hmoved.station i).trans (h.station i)
  sessions := fun i => by
    rw [hmoved.server]
    exact h.sessions i
  senders := fun p hp => (hmoved.senders p hp).elim (h.senders p) id
  phases := fun i cor => by
    obtain ⟨phase, hphase⟩ := h.phases i cor
    by_cases heq : ((setup i).threadId, cor) = e.caller
    · obtain ⟨phase', _, hphase'⟩ := hmoved.own i cor heq phase hphase
      exact ⟨phase', hphase'⟩
    · rw [hmoved.other i cor heq]
      exact ⟨phase, hphase⟩

end RemoteSystem.Sound

end Steps

end Rolex
