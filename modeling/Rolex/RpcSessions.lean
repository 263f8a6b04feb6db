import Rolex.RemoteSearch

/-!
The sessions of a server worker that several clients connect to. A client connects with its thread
id as session id, and the server finds the transport of a reply by that id alone.
-/

namespace Rolex
open Bytes

variable {F : Type} {N : ℕ} (fmt : DoubleFormat F) (epsilon : ℕ)

structure Arrival (F : Type) (N : ℕ) where
  client : ClientSetup
  packet : Packet
  index : RolexIndex F Val N
  u : Uninit

/-- What a client sends: the connect message, or a request. -/
inductive ClientSetup.Sends (x : ClientSetup) : Packet → Prop where
  | connect {p : Packet} (raw : Header) : x.connectPacket raw = .ok p → x.Sends p
  | request {m : Message} : m.header.type = MsgType.req.toBits → x.Sends (x.sender.sendUnsignaled m)

/-- The loop of a server worker over the datagrams that it receives; each reply stands with the
client whose request it answers. -/
def serveAll (bufs : ReplyBufs) :
    RPCCore → List (Arrival F N) → Except RpcFault (List (ClientSetup × Packet))
  | _, [] => .ok []
  | core, a :: rest => do
    let res ← receive false (serverCallbacks fmt epsilon) a.index a.u core bufs a.packet
    let replies ← serveAll res.bufs res.core rest
    .ok (res.sent.toList.map (a.client, ·) ++ replies)

namespace Arrival

def isConnect (a : Arrival F N) : Bool := a.packet.msg.header.type = MsgType.connect.toBits

def isRequest (a : Arrival F N) : Bool := a.packet.msg.header.type = MsgType.req.toBits

end Arrival

def firstConnect (arrivals : List (Arrival F N)) (id : Fin (2 ^ 32)) : Option QPAttr :=
  (arrivals.find? fun a => a.isConnect && decide (a.client.threadId = id)).map fun a =>
    a.client.attr

def OwnReply (r : ClientSetup × Packet) : Prop := ∃ m, r.2 = r.1.session.sendUnsignaled m

def FirstOfTheirId (arrivals : List (Arrival F N)) : Prop :=
  ∀ i a, arrivals[i]? = some a → a.isRequest = true →
    firstConnect (arrivals.take i) a.client.threadId = some a.client.attr

def SessionsOf (core : RPCCore) (arrivals : List (Arrival F N)) : Prop :=
  ∀ id, core.incomingSesions id = (firstConnect arrivals id).map fun attr => some ⟨id, attr⟩

variable {fmt epsilon}

/-! ### One datagram -/

section Receive

variable {S : Type} {callbacks : List (Callback S)} {shared : S} {u : Uninit} {core : RPCCore}
  {bufs : ReplyBufs} {pre : List (Arrival F N)} {a : Arrival F N} {res : Received S}

theorem firstConnect_concat (id : Fin (2 ^ 32)) :
    firstConnect (pre ++ [a]) id = (firstConnect pre id).or (if a.isConnect = true ∧
      a.client.threadId = id then some a.client.attr else none) := by
  rw [firstConnect, List.find?_append, Option.map_or, firstConnect, List.find?_singleton]
  by_cases h : a.isConnect = true ∧ a.client.threadId = id
  · rw [if_pos h, if_pos (by simp [h]), Option.map_some]
  · rw [if_neg h, if_neg (by simpa using h), Option.map_none]

theorem SessionsOf.connect (h : SessionsOf core pre) {raw : Header}
    (hp : a.client.connectPacket raw = .ok a.packet)
    (hres : receive false callbacks shared u core bufs a.packet = .ok res) :
    SessionsOf res.core (pre ++ [a]) ∧ res.sent = none := by
  have hpacket := Except.ok.inj ((a.client.connectPacket_ok raw).symm.trans hp)
  have himm : a.packet.immData = a.client.threadId := by
    rw [← hpacket]
    rfl
  have hconnect : a.isConnect = true := by
    rw [Arrival.isConnect, ← hpacket]
    exact decide_eq_true rfl
  obtain ⟨core', hadd, _, hself, hother⟩ := core.addImpl_ok a.client.threadId a.client.attr
  rw [receive_connect (congrArg Packet.msg hpacket.symm), himm, hadd, ok_bind] at hres
  obtain rfl := Except.ok.inj hres
  refine ⟨fun id => ?_, rfl⟩
  rw [firstConnect_concat]
  by_cases hid : a.client.threadId = id
  · subst hid
    rw [if_pos ⟨hconnect, rfl⟩, hself, h]
    cases firstConnect pre a.client.threadId <;> rfl
  · rw [if_neg (fun hc => hid hc.2), Option.or_none, hother id (Ne.symm hid), h]

theorem SessionsOf.request (h : SessionsOf core pre) {m : Message}
    (hm : m.header.type = MsgType.req.toBits) (hp : a.packet = a.client.sender.sendUnsignaled m)
    (hres : receive false callbacks shared u core bufs a.packet = .ok res) :
    SessionsOf res.core (pre ++ [a]) ∧
      ∃ attr reply, firstConnect pre a.client.threadId = some attr ∧
        res.sent = some (UDSession.sendUnsignaled ⟨a.client.threadId, attr⟩ reply) := by
  have htype : a.packet.msg.header.type = MsgType.req.toBits := by
    rw [hp]
    exact hm
  have hconnect : ¬a.isConnect = true := by
    rw [Arrival.isConnect, htype]
    decide
  obtain ⟨hcore, _, replyc, reply, hsession, hsent⟩ := receive_req_eq_ok htype hres
  rw [show a.packet.immData = a.client.threadId by rw [hp]; rfl, h,
    Option.map_eq_some_iff] at hsession
  obtain ⟨attr, hfirst, hreplyc⟩ := hsession
  obtain rfl := Option.some.inj hreplyc
  refine ⟨fun id => ?_, attr, reply, hfirst, hsent⟩
  rw [hcore, h, firstConnect_concat, if_neg (fun hc => hconnect hc.1), Option.or_none]

theorem ownReply_iff {x : ClientSetup} {attr : QPAttr} {m : Message} :
    OwnReply (x, UDSession.sendUnsignaled ⟨x.threadId, attr⟩ m) ↔ attr = x.attr := by
  refine ⟨fun ⟨_, h⟩ => congrArg Packet.dest h, fun h => ⟨m, ?_⟩⟩
  subst h
  rfl

theorem SessionsOf.step (h : SessionsOf core pre) (hsends : a.client.Sends a.packet)
    (hres : receive false callbacks shared u core bufs a.packet = .ok res) :
    SessionsOf res.core (pre ++ [a]) ∧
      ((∀ r ∈ res.sent.toList.map (a.client, ·), OwnReply r) ↔
        (a.isRequest = true → firstConnect pre a.client.threadId = some a.client.attr)) := by
  generalize hp : a.packet = p at hsends
  cases hsends with
  | connect raw hconnect =>
    subst hp
    obtain ⟨hsessions, hsent⟩ := h.connect hconnect hres
    have hpacket := Except.ok.inj ((a.client.connectPacket_ok raw).symm.trans hconnect)
    have hreq : ¬a.isRequest = true := by
      rw [Arrival.isRequest, ← hpacket]
      exact Bool.false_ne_true
    rw [hsent]
    exact ⟨hsessions, iff_of_true (fun _ hr => absurd hr List.not_mem_nil) fun hr => absurd hr hreq⟩
  | request hm =>
    obtain ⟨hsessions, attr, reply, hfirst, hsent⟩ := h.request hm hp hres
    have hreq : a.isRequest = true := by
      rw [Arrival.isRequest, hp]
      exact decide_eq_true hm
    refine ⟨hsessions, ?_⟩
    rw [hsent, Option.toList_some, List.map_singleton, List.forall_mem_singleton, ownReply_iff,
      hfirst, Option.some.injEq]
    exact ⟨fun hattr _ => hattr, fun hall => hall hreq⟩

end Receive

/-! ### Every order of arrivals -/

theorem SessionsOf.serveAll {rest : List (Arrival F N)} :
    ∀ {pre : List (Arrival F N)} {core : RPCCore} {bufs : ReplyBufs}
    {replies : List (ClientSetup × Packet)}, SessionsOf core pre →
    (∀ a ∈ rest, a.client.Sends a.packet) →
    Rolex.serveAll fmt epsilon bufs core rest = .ok replies →
    ((∀ r ∈ replies, OwnReply r) ↔ ∀ i a, rest[i]? = some a →
      a.isRequest = true →
      firstConnect (pre ++ rest.take i) a.client.threadId = some a.client.attr) := by
  induction rest with
  | nil =>
    intro pre core bufs replies _ _ hok
    obtain rfl := Except.ok.inj hok
    exact iff_of_true (fun _ hr => absurd hr List.not_mem_nil) fun _ _ ha => by cases ha
  | cons a rest ih =>
    intro pre core bufs replies h hsends hok
    obtain ⟨res, hres, hok⟩ := bind_eq_ok hok
    obtain ⟨replies', hrest, hok⟩ := bind_eq_ok hok
    obtain rfl := Except.ok.inj hok
    obtain ⟨hsessions, hfirst⟩ := h.step (hsends a List.mem_cons_self) hres
    have hrest := ih hsessions (fun b hb => hsends b (List.mem_cons_of_mem a hb)) hrest
    rw [List.forall_mem_append, hfirst, hrest]
    -- the first datagram, and the ones behind it
    refine ⟨fun ⟨hzero, hsucc⟩ i b hb => ?_, fun hall => ⟨?_, fun i b hb => ?_⟩⟩
    · cases i with
      | zero =>
        obtain rfl := Option.some.inj hb
        rwa [List.take_zero, List.append_nil]
      | succ i =>
        rw [List.take_succ_cons, ← List.singleton_append, ← List.append_assoc]
        exact hsucc i b hb
    · have hzero := hall 0 a rfl
      rwa [List.take_zero, List.append_nil] at hzero
    · have hsucc := hall (i + 1) b hb
      rwa [List.take_succ_cons, ← List.singleton_append, ← List.append_assoc] at hsucc

/-- Every reply goes over the transport of the client that sent the request, exactly when every
request comes from a client that was the first to connect with its thread id. -/
theorem ownReplies_iff {arrivals : List (Arrival F N)}
    (hsends : ∀ a ∈ arrivals, a.client.Sends a.packet) {bufs : ReplyBufs} {numCors : ℕ}
    {replies : List (ClientSetup × Packet)}
    (hok : serveAll fmt epsilon bufs (RPCCore.construct numCors) arrivals = .ok replies) :
    (∀ r ∈ replies, OwnReply r) ↔ FirstOfTheirId arrivals := by
  have hstart : SessionsOf (RPCCore.construct numCors) ([] : List (Arrival F N)) := fun _ => rfl
  exact hstart.serveAll hsends hok

/-! ### Two clients -/

def workerOf (threadId : Fin (2 ^ 32)) (qpn : Fin (2 ^ 64)) : ClientSetup :=
  ⟨1, threadId, ⟨0, 0, 0, 0, 0, 0, qpn, 0⟩, ⟨0, 0, 0, 0, 0, 0, 1, 0⟩⟩

def bothAsk (x y : ClientSetup) (index : RolexIndex ℚ Val 2) : List (Arrival ℚ 2) :=
  let raw : Header := ⟨0, 0, 0, 0⟩
  let connect (c : ClientSetup) : Arrival ℚ 2 :=
    ⟨c, c.sender.sendUnsignaled (connectMessage c.attr raw), index, ⟨raw, ⟨false, 0⟩⟩⟩
  let ask (c : ClientSetup) : Arrival ℚ 2 :=
    ⟨c, c.sender.sendUnsignaled (requestMessage .get (toBytes 8 5) 1), index, ⟨raw, ⟨false, 0⟩⟩⟩
  [connect x, connect y, ask x, ask y]

theorem bothAsk_sends (x y : ClientSetup) (index : RolexIndex ℚ Val 2) :
    ∀ a ∈ bothAsk x y index, a.client.Sends a.packet := by
  have hconnect : ∀ c : ClientSetup,
      c.Sends (c.sender.sendUnsignaled (connectMessage c.attr ⟨0, 0, 0, 0⟩)) :=
    fun c => .connect _ (c.connectPacket_ok _)
  intro a ha
  rw [bothAsk] at ha
  fin_cases ha
  · exact hconnect x
  · exact hconnect y
  · exact .request rfl
  · exact .request rfl

theorem ownReplies_iff_two : ∃ index replies,
    serveAll exactFormat 1 (fun _ => []) (RPCCore.construct 12)
    (bothAsk (workerOf 0 2) (workerOf 1 3) index) = .ok replies ∧
    ((∀ r ∈ replies, OwnReply r) ↔
      FirstOfTheirId (bothAsk (workerOf 0 2) (workerOf 1 3) index)) := by
  obtain ⟨index, _, hserve⟩ := exists_ok (p := fun index : RolexIndex ℚ Val 2 =>
      (serveAll exactFormat 1 (fun _ => []) (RPCCore.construct 12)
        (bothAsk (workerOf 0 2) (workerOf 1 3) index)).toOption.any fun _ => true)
    (by decide +kernel : (emptyWords.train exactFormat 1 noEntries [(5, 50)]).toOption.any _ = true)
  obtain ⟨replies, hok, _⟩ := exists_ok hserve
  exact ⟨index, replies, hok, ownReplies_iff (bothAsk_sends _ _ index) hok⟩

/-- A second client has the thread id of the first, or the first is started again: the reply to its
request goes to the queue pair of the first. -/
theorem reply_to_first_client :
    ∃ index replies, emptyWords.train exactFormat 1 noEntries [(5, 50)] = .ok index ∧
    serveAll exactFormat 1 (fun _ => []) (RPCCore.construct 12)
    (bothAsk (workerOf 0 2) (workerOf 0 3) index) = .ok replies ∧
    ∃ r ∈ replies, r.1 = workerOf 0 3 ∧ r.2.dest = (workerOf 0 2).attr ∧ ¬OwnReply r := by
  obtain ⟨index, hindex, hserve⟩ := exists_ok (p := fun index : RolexIndex ℚ Val 2 =>
      (serveAll exactFormat 1 (fun _ => []) (RPCCore.construct 12)
        (bothAsk (workerOf 0 2) (workerOf 0 3) index)).toOption.any fun replies =>
        replies.any fun r => decide (r.1 = workerOf 0 3 ∧ r.2.dest = (workerOf 0 2).attr))
    (by decide +kernel : (emptyWords.train exactFormat 1 noEntries [(5, 50)]).toOption.any _ = true)
  obtain ⟨replies, hok, hany⟩ := exists_ok hserve
  obtain ⟨r, hr, hp⟩ := List.any_eq_true.mp hany
  obtain ⟨hclient, hdest⟩ := of_decide_eq_true hp
  refine ⟨index, replies, hindex, hok, r, hr, hclient, hdest, fun ⟨m, hm⟩ => ?_⟩
  have hown : r.2.dest = r.1.attr := congrArg Packet.dest hm
  rw [hclient, hdest] at hown
  exact absurd hown (by decide)

end Rolex
