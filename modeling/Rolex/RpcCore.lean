import Rolex.RpcMessages

/-!
`RPCCore` of `rpc/mod.hh` over the UD transport of `rdma_ud_t.hh`: the sessions of a worker, the
callbacks of the server, the handling of one received message, and the calls of the client.
-/

namespace Rolex
open Bytes

/-! ### UD transport -/

structure QPAttr where
  subnetPrefix : Fin (2 ^ 64)
  interfaceId : Fin (2 ^ 64)
  localId : Fin (2 ^ 32)
  lid : Fin (2 ^ 64)
  psn : Fin (2 ^ 64)
  portId : Fin (2 ^ 64)
  qpn : Fin (2 ^ 64)
  qkey : Fin (2 ^ 64)
  deriving DecidableEq, Repr

def sizeofQPAttr : ℕ := 60

def fieldAt (w off : ℕ) (bs : List Byte) : ℕ := ofBytes ((bs.drop off).take w)

def QPAttr.toBytes (a : QPAttr) : List Byte :=
  Bytes.toBytes 8 a.subnetPrefix ++ (Bytes.toBytes 8 a.interfaceId ++ (Bytes.toBytes 4 a.localId ++
    (Bytes.toBytes 8 a.lid ++ (Bytes.toBytes 8 a.psn ++ (Bytes.toBytes 8 a.portId ++
      (Bytes.toBytes 8 a.qpn ++ Bytes.toBytes 8 a.qkey))))))

/-- `interpret_as<QPAttr>(0)`, which checks the size only. -/
def QPAttr.ofBytes (bs : List Byte) : Option QPAttr :=
  if bs.length < sizeofQPAttr then none
  else some ⟨Fin.ofNat _ (fieldAt 8 0 bs), Fin.ofNat _ (fieldAt 8 8 bs),
    Fin.ofNat _ (fieldAt 4 16 bs), Fin.ofNat _ (fieldAt 8 20 bs), Fin.ofNat _ (fieldAt 8 28 bs),
    Fin.ofNat _ (fieldAt 8 36 bs), Fin.ofNat _ (fieldAt 8 44 bs), Fin.ofNat _ (fieldAt 8 52 bs)⟩

theorem fieldAt_zero (w n : ℕ) (bs : List Byte) :
    fieldAt w 0 (toBytes w n ++ bs) = n % 256 ^ w := by
  rw [fieldAt, List.drop_zero, List.take_append_of_le_length (length_toBytes w n).ge,
    List.take_of_length_le (length_toBytes w n).le, ofBytes_toBytes_mod]

theorem fieldAt_append {w v n off : ℕ} {bs : List Byte} (h : v ≤ off) :
    fieldAt w off (toBytes v n ++ bs) = fieldAt w (off - v) bs := by
  rw [fieldAt, List.drop_append, length_toBytes,
    List.drop_eq_nil_of_le ((length_toBytes v n).trans_le h), List.nil_append, fieldAt]

theorem fieldAt_self (w n : ℕ) : fieldAt w 0 (toBytes w n) = n % 256 ^ w := by
  rw [← fieldAt_zero w n [], List.append_nil]

@[simp] theorem QPAttr.length_toBytes (a : QPAttr) : a.toBytes.length = sizeofQPAttr := by
  simp only [toBytes, List.length_append, Bytes.length_toBytes, sizeofQPAttr]

theorem QPAttr.ofBytes_toBytes (a : QPAttr) : QPAttr.ofBytes a.toBytes = some a := by
  have hword : ∀ v : Fin (2 ^ 64), Fin.ofNat (2 ^ 64) (v.val % 256 ^ 8) = v := fun v => by
    rw [show 256 ^ 8 = 2 ^ 64 by norm_num, Nat.mod_eq_of_lt v.isLt, Fin.ofNat_val_eq_self]
  have hhalf : ∀ v : Fin (2 ^ 32), Fin.ofNat (2 ^ 32) (v.val % 256 ^ 4) = v := fun v => by
    rw [show 256 ^ 4 = 2 ^ 32 by norm_num, Nat.mod_eq_of_lt v.isLt, Fin.ofNat_val_eq_self]
  rw [QPAttr.ofBytes, if_neg a.length_toBytes.ge.not_gt, toBytes]
  -- each field stands behind the ones before it
  simp (disch := decide) only [fieldAt_append, Nat.reduceSub, fieldAt_zero, fieldAt_self, hword,
    hhalf]

structure UDSession where
  id : Fin (2 ^ 32)
  remoteAttr : QPAttr
  deriving DecidableEq, Repr

structure Packet where
  dest : QPAttr
  immData : Fin (2 ^ 32)
  msg : Message
  deriving DecidableEq, Repr

/-- `send_unsignaled` when the queue pair accepts the message. The count `pending_reqs` of
unsignaled requests, the wait for their completion and the errors of both are left out. -/
def UDSession.sendUnsignaled (s : UDSession) (msg : Message) : Packet := ⟨s.remoteAttr, s.id, msg⟩

/-! ### The state of a worker -/

/-- `some none` is a null pointer, which `operator[]` of `incoming_sesions` puts in. -/
structure RPCCore where
  incomingSesions : Fin (2 ^ 32) → Option (Option UDSession)
  replyStation : ReplyStation

def RPCCore.construct (numCors : ℕ) : RPCCore := ⟨fun _ => none, ReplyStation.construct numCors⟩

/-- `add_impl`, "assumption: the id is not in the incoming_sessions"; `insert` keeps what is
there. -/
def RPCCore.addImpl (core : RPCCore) (id : Fin (2 ^ 32)) (rawConnectData : List Byte) :
    Except RpcFault RPCCore :=
  match QPAttr.ofBytes rawConnectData with
  | none => .error .noAttr
  | some attr =>
    match core.incomingSesions id with
    | some _ => .ok core
    | none =>
      .ok
        { core with
          incomingSesions := Function.update core.incomingSesions id (some (some ⟨id, attr⟩)) }

/-! ### The callbacks of the server -/

/-- What the uninitialised locals of a callback hold. -/
structure Uninit where
  header : Header
  reply : ReplyValue

inductive RPCId where
  | get
  | put
  | update
  | delete
  | scan
  deriving DecidableEq, Repr

def RPCId.toNat : RPCId → ℕ
  | get => 0
  | put => 1
  | update => 2
  | delete => 3
  | scan => 4

abbrev Callback (S : Type) := S → Uninit → Header → List Byte → Except RpcFault (RPCOp × S)

section Callbacks

variable {F : Type} {N : ℕ} (fmt : DoubleFormat F) (epsilon : ℕ)

def wordOf (off : ℕ) (args : List Byte) : Fin (2 ^ 64) := Fin.ofNat _ (fieldAt 8 off args)

def replyOp (raw : Header) (rpcHeader : Header) (reply : ReplyValue) : Except RpcFault RPCOp := do
  let op ← RPCOp.setMsg ⟨raw, 0, []⟩ 64
  let arg := op.setReply.addArg reply.toBytes
  if arg.1 then .ok (arg.2.setCorid rpcHeader.corId) else .error .badArgs

def getReply (index : RolexIndex F Val N) (key : Key) : Except RpcFault ReplyValue := do
  let res ← (index.search fmt epsilon key).mapError .index
  match res with
  | some val => .ok ⟨true, val⟩
  | none => .ok ⟨false, 1234⟩

def rolexGetCallback : Callback (RolexIndex F Val N) := fun index u rpcHeader args =>
  if args.length = 8 then do
    let reply ← getReply fmt epsilon index (wordOf 0 args)
    let op ← replyOp u.header rpcHeader reply
    .ok (op, index)
  else .error .badArgs

/-- The reply is not initialised. -/
def rolexPutCallback : Callback (RolexIndex F Val N) := fun index u rpcHeader args =>
  if args.length = 16 then do
    let res ← (index.insert fmt epsilon (wordOf 0 args) (wordOf 8 args)).mapError .index
    let op ← replyOp u.header rpcHeader u.reply
    .ok (op, res.2)
  else .error .badArgs

def rolexUpdateCallback : Callback (RolexIndex F Val N) := fun index u rpcHeader args =>
  if args.length = 16 then do
    let res ← (index.update fmt epsilon (wordOf 0 args) (wordOf 8 args)).mapError .index
    let op ← replyOp u.header rpcHeader ⟨res.1, wordOf 8 args⟩
    .ok (op, res.2)
  else .error .badArgs

def rolexRemoveCallback : Callback (RolexIndex F Val N) := fun index u rpcHeader args =>
  if args.length = 8 then do
    let res ← (index.remove fmt epsilon (wordOf 0 args)).mapError .index
    let op ← replyOp u.header rpcHeader ⟨res.1, 0⟩
    .ok (op, res.2)
  else .error .badArgs

/-- The reply is not initialised; the limit is an `int` that is compared with a `size_t`. -/
def rolexScanCallback : Callback (RolexIndex F Val N) := fun index u rpcHeader args =>
  if args.length = 16 then do
    let _ ← (index.range fmt epsilon (wordOf 0 args) (toInt32 (wordOf 8 args) % 2 ^ 64).toNat
      []).mapError .index
    let op ← replyOp u.header rpcHeader u.reply
    .ok (op, index)
  else .error .badArgs

def serverCallbacks : List (Callback (RolexIndex F Val N)) :=
  [rolexGetCallback fmt epsilon, rolexPutCallback fmt epsilon, rolexUpdateCallback fmt epsilon,
    rolexRemoveCallback fmt epsilon, rolexScanCallback fmt epsilon]

end Callbacks

/-! ### One received message -/

structure Received (S : Type) where
  core : RPCCore
  bufs : ReplyBufs
  shared : S
  sent : Option Packet
  addback : Option ℕ

def recvSz : ℕ := 4000

/-- The loop bodies of `recv_event_loop` and of the future of `reg_poll_future`, which adds back
coroutines. -/
def receive {S : Type} (future : Bool) (callbacks : List (Callback S)) (shared : S) (u : Uninit)
    (core : RPCCore) (bufs : ReplyBufs) (p : Packet) : Except RpcFault (Received S) :=
  let h := p.msg.header
  if recvSz < h.payload + sizeofHeader then .error .payloadTooLarge
  else
    let payload := p.msg.body.take h.payload
    if h.type = MsgType.req.toBits then
      match callbacks[h.rpcId.val]? with
      | none => .error .rpcCallFailed
      | some f => do
        let res ← f shared u h payload
        match core.incomingSesions p.immData with
        | some (some replyc) =>
          .ok ⟨core, bufs, res.2, some (replyc.sendUnsignaled res.1.finalize), none⟩
        | _ => .error .nullSession
    else if h.type = MsgType.reply.toBits then do
      let res ← core.replyStation.appendReply h.corId bufs payload
      if res.1 then do
        let ready ← if future then res.2.1.corReady h.corId else .ok false
        .ok ⟨{ core with replyStation := res.2.1 }, res.2.2, shared, none, if ready then
          some h.corId else none⟩
      else .error .addReplyError
    else if h.type = MsgType.connect.toBits then do
      let core ← core.addImpl p.immData payload
      .ok ⟨core, bufs, shared, none, none⟩
    else .error .notImplemented

/-! ### The client -/

structure ClientSetup where
  coros : ℕ
  threadId : Fin (2 ^ 32)
  attr : QPAttr
  serverAttr : QPAttr
  deriving DecidableEq

def ClientSetup.sender (c : ClientSetup) : UDSession := ⟨c.threadId, c.serverAttr⟩

def ClientSetup.connectPacket (c : ClientSetup) (raw : Header) : Except RpcFault Packet := do
  let op ← RPCOp.getConnectOp raw 2048 c.attr.toBytes
  .ok (c.sender.sendUnsignaled op.finalize)

/-- The part before the pause: the new table, and what is sent. `raw` is the uninitialised
header. -/
def remoteCall (rpcId : RPCId) (args : List Byte) (corId : ℕ) (raw : Header)
    (station : ReplyStation) : Except RpcFault (ReplyStation × Message) := do
  let op ← RPCOp.setMsg ⟨raw, 0, []⟩ 64
  let op := (op.setReq.setRpcId rpcId.toNat).setCorid corId
  let added ← station.addPendingReply op.header.corId
    (ReplyEntry.construct ⟨some corId, sizeofReplyValue⟩)
  .ok (added.2, (op.addArg args).2.finalize)

/-- The `ASSERT` on the reply station stands here only. -/
def remoteSearch (key : Key) (corId : ℕ) (raw : Header) (station : ReplyStation) :
    Except RpcFault (ReplyStation × Message) := do
  let res ← remoteCall .get (toBytes 8 key) corId raw station
  let ready ← res.1.corReady corId
  if ready then .error .noPendingReply else .ok res

def remotePut (key : Key) (val : Val) :
    ℕ → Header → ReplyStation → Except RpcFault (ReplyStation × Message) :=
  remoteCall .put (toBytes 8 key ++ toBytes 8 val)

def remoteUpdate (key : Key) (val : Val) :
    ℕ → Header → ReplyStation → Except RpcFault (ReplyStation × Message) :=
  remoteCall .update (toBytes 8 key ++ toBytes 8 val)

def remoteRemove (key : Key) :
    ℕ → Header → ReplyStation → Except RpcFault (ReplyStation × Message) :=
  remoteCall .delete (toBytes 8 key)

def remoteScan (key : Key) (n : Fin (2 ^ 64)) :
    ℕ → Header → ReplyStation → Except RpcFault (ReplyStation × Message) :=
  remoteCall .scan (toBytes 8 key ++ toBytes 8 n)

def remoteSearchResult (replyBuf : List Byte) : Option Val :=
  let r := ReplyValue.ofBytes replyBuf
  if r.status then some r.val else none

/-! ### Messages that are handled -/

section Receive

variable {S : Type} {future : Bool} {callbacks : List (Callback S)} {shared : S} {u : Uninit}
  {core : RPCCore} {bufs : ReplyBufs} {p : Packet}

theorem receive_of_req (hsz : p.msg.header.payload + sizeofHeader ≤ recvSz)
    (htype : p.msg.header.type = MsgType.req.toBits) {f : Callback S}
    (hf : callbacks[p.msg.header.rpcId.val]? = some f) {replyc : UDSession}
    (hs : core.incomingSesions p.immData = some (some replyc)) :
    receive future callbacks shared u core bufs p = (do
      let res ← f shared u p.msg.header (p.msg.body.take p.msg.header.payload)
      .ok ⟨core, bufs, res.2, some (replyc.sendUnsignaled res.1.finalize), none⟩) := by
  rw [receive, hf, hs]
  dsimp only
  rw [if_neg hsz.not_gt, if_pos htype]

theorem receive_req_eq_ok (htype : p.msg.header.type = MsgType.req.toBits) {res : Received S}
    (h : receive future callbacks shared u core bufs p = .ok res) :
    res.core = core ∧ res.bufs = bufs ∧
    ∃ replyc m, core.incomingSesions p.immData = some (some replyc) ∧
      res.sent = some (replyc.sendUnsignaled m) := by
  rw [receive] at h
  dsimp only at h
  rw [if_pos htype] at h
  split at h
  · cases h
  · split at h
    · cases h
    · obtain ⟨op, _, h⟩ := bind_eq_ok h
      split at h
      · obtain rfl := Except.ok.inj h
        exact ⟨rfl, rfl, _, _, ‹_›, rfl⟩
      · cases h

theorem receive_of_reply (hsz : p.msg.header.payload + sizeofHeader ≤ recvSz)
    (htype : p.msg.header.type = MsgType.reply.toBits) :
    receive future callbacks shared u core bufs p = (do
      let res ← core.replyStation.appendReply p.msg.header.corId bufs
        (p.msg.body.take p.msg.header.payload)
      if res.1 then do
        let ready ← if future then res.2.1.corReady p.msg.header.corId else .ok false
        .ok ⟨{ core with replyStation := res.2.1 }, res.2.2, shared, none,
          if ready then some p.msg.header.corId.val else none⟩
      else .error .addReplyError) := by
  have hreq : p.msg.header.type ≠ MsgType.req.toBits := by
    rw [htype]
    decide
  rw [receive]
  dsimp only
  rw [if_neg hsz.not_gt, if_neg hreq, if_pos htype]

theorem receive_of_connect (hsz : p.msg.header.payload + sizeofHeader ≤ recvSz)
    (htype : p.msg.header.type = MsgType.connect.toBits) :
    receive future callbacks shared u core bufs p = (do
      let core ← core.addImpl p.immData (p.msg.body.take p.msg.header.payload)
      .ok ⟨core, bufs, shared, none, none⟩) := by
  have hreq : p.msg.header.type ≠ MsgType.req.toBits := by
    rw [htype]
    decide
  have hreply : p.msg.header.type ≠ MsgType.reply.toBits := by
    rw [htype]
    decide
  rw [receive]
  dsimp only
  rw [if_neg hsz.not_gt, if_neg hreq, if_neg hreply, if_pos htype]

end Receive

/-! ### A request and its reply -/

def ReplyEntry.waiting (cor : ℕ) : ReplyEntry := ⟨1, ⟨some cor, sizeofReplyValue⟩, 0⟩

def ReplyEntry.filled (cor : ℕ) : ReplyEntry := ⟨0, ⟨some cor, sizeofReplyValue⟩, sizeofReplyValue⟩

def requestMessage (rpcId : RPCId) (args : List Byte) (cor : ℕ) : Message :=
  ⟨⟨MsgType.req.toBits, Fin.ofNat _ rpcId.toNat, Fin.ofNat _ args.length, Fin.ofNat _ cor⟩, args⟩

/-- What a callback sends; the RPC id is not initialised. -/
def replyMessage (reply : ReplyValue) (raw : Header) (corId : Fin 128) : Message :=
  ⟨⟨MsgType.reply.toBits, raw.rpcId, Fin.ofNat _ sizeofReplyValue, corId⟩, reply.toBytes⟩

theorem ReplyStation.addPendingReply_ok {station : ReplyStation} {cor : ℕ} {r : ReplyEntry}
    (hr : station[cor]? = some r) (hp : r.pendingReplies = 0) (reply : ReplyEntry) :
    station.addPendingReply cor reply = .ok (true, station.set cor reply) := by
  rw [addPendingReply, hr]
  exact if_neg (by omega)

theorem ReplyStation.appendReply_ok {station : ReplyStation} {cor : ℕ} {bufs : ReplyBufs}
    {payload : List Byte} (hr : station[cor]? = some (.waiting cor))
    (hbuf : (bufs cor).length = sizeofReplyValue) (hlen : payload.length = sizeofReplyValue) :
    station.appendReply cor bufs payload =
      .ok (true, station.set cor (.filled cor), Function.update bufs cor payload) := by
  have hfit : (ReplyEntry.waiting cor).curPtr + payload.length ≤
      (ReplyEntry.waiting cor).replyBuf.sz :=
    ((Nat.zero_add _).trans hlen).le
  have hpending : (1 + (2 ^ 32 - 1)) % 2 ^ 32 = 0 := by norm_num
  rw [appendReply, hr]
  dsimp only
  rw [if_neg (show (ReplyEntry.waiting cor).pendingReplies ≠ 0 from one_ne_zero), if_pos hfit]
  dsimp only [ReplyEntry.waiting]
  rw [memcpy_all (hlen.trans hbuf.symm), Nat.zero_add, hlen, hpending, ReplyEntry.filled]

theorem remoteCall_ok {station : ReplyStation} {cor : ℕ} {r : ReplyEntry} (hlt : cor < 128)
    (hr : station[cor]? = some r) (hp : r.pendingReplies = 0) (rpcId : RPCId) {args : List Byte}
    (hargs : args.length ≤ 56) (raw : Header) :
    remoteCall rpcId args cor raw station =
    .ok (station.set cor (.waiting cor), requestMessage rpcId args cor) := by
  have hcor : (Fin.ofNat 128 cor).val = cor := Nat.mod_eq_of_lt hlt
  have hset : RPCOp.setMsg ⟨raw, 0, []⟩ 64 = .ok ⟨raw, 64, []⟩ := rfl
  have hop : (((⟨raw, 64, []⟩ : RPCOp).setReq.setRpcId rpcId.toNat).setCorid cor) =
      ⟨⟨MsgType.req.toBits, Fin.ofNat _ rpcId.toNat, raw.payload, Fin.ofNat _ cor⟩, 64, []⟩ := rfl
  have hfit : args.length + sizeofHeader ≤ 64 := by
    rw [sizeofHeader]
    omega
  rw [remoteCall, hset, ok_bind]
  dsimp only
  rw [hop, RPCOp.addArg_ok hfit, RPCOp.finalize_ok (hargs.trans_lt (by norm_num)), hcor,
    ReplyStation.addPendingReply_ok hr hp, ok_bind]
  rfl

theorem remoteSearch_ok {station : ReplyStation} {cor : ℕ} {r : ReplyEntry} (hlt : cor < 128)
    (hr : station[cor]? = some r) (hp : r.pendingReplies = 0) (key : Key) (raw : Header) :
    remoteSearch key cor raw station =
    .ok (station.set cor (.waiting cor), requestMessage .get (toBytes 8 key) cor) := by
  have hset : (station.set cor (.waiting cor))[cor]? = some (.waiting cor) :=
    List.getElem?_set_self (List.getElem?_eq_some_iff.mp hr).1
  rw [remoteSearch, remoteCall_ok hlt hr hp _ (by rw [length_toBytes]; norm_num), ok_bind]
  dsimp only
  rw [ReplyStation.corReady, hset]
  rfl

theorem replyOp_ok (raw rpcHeader : Header) (reply : ReplyValue) :
    ∃ op, replyOp raw rpcHeader reply = .ok op ∧
      op.finalize = replyMessage reply raw rpcHeader.corId := by
  have hset : RPCOp.setMsg ⟨raw, 0, []⟩ 64 = .ok ⟨raw, 64, []⟩ := rfl
  have hfit : reply.toBytes.length + (sizeofHeader + 0) ≤ 64 := by
    rw [reply.length_toBytes, sizeofReplyValue, sizeofHeader]
    norm_num
  rw [replyOp, hset, ok_bind]
  dsimp only
  rw [RPCOp.addArg_ok hfit, if_pos rfl]
  refine ⟨_, rfl, ?_⟩
  have hlen : reply.toBytes.length < 2 ^ 18 := by
    rw [reply.length_toBytes, sizeofReplyValue]
    norm_num
  rw [RPCOp.finalize_ok hlen]
  dsimp only [RPCOp.setReply, RPCOp.setType, RPCOp.setCorid, List.nil_append]
  rw [reply.length_toBytes, Fin.ofNat_val_eq_self, replyMessage]

theorem receive_reply {S : Type} {callbacks : List (Callback S)} {shared : S} {u : Uninit}
    {core : RPCCore} {bufs : ReplyBufs} {p : Packet} {cor : ℕ} {reply : ReplyValue} {raw : Header}
    (hp : p.msg = replyMessage reply raw (Fin.ofNat _ cor)) (hlt : cor < 128)
    (hr : core.replyStation[cor]? = some (.waiting cor))
    (hbuf : (bufs cor).length = sizeofReplyValue) : receive true callbacks shared u core bufs p =
      .ok ⟨{ core with replyStation := core.replyStation.set cor (.filled cor) },
        Function.update bufs cor reply.toBytes, shared, none, some cor⟩ := by
  have hcor : p.msg.header.corId.val = cor := by
    rw [hp]
    exact Nat.mod_eq_of_lt hlt
  have hpayload : p.msg.body.take p.msg.header.payload = reply.toBytes := by
    rw [hp]
    exact List.take_of_length_le reply.length_toBytes.le
  have hset : (core.replyStation.set cor (.filled cor))[cor]? = some (.filled cor) :=
    List.getElem?_set_self (List.getElem?_eq_some_iff.mp hr).1
  have hsz : (Fin.ofNat (2 ^ 18) sizeofReplyValue).val + sizeofHeader ≤ recvSz := by decide
  rw [receive_of_reply (by rw [hp]; exact hsz) (by rw [hp]; rfl), hpayload, hcor,
    ReplyStation.appendReply_ok hr hbuf reply.length_toBytes, ok_bind]
  dsimp only
  rw [if_pos rfl, if_pos rfl, ReplyStation.corReady, hset]
  rfl

theorem receive_arrived {S : Type} {callbacks : List (Callback S)} {shared : S} {u : Uninit}
    {core : RPCCore} {bufs : ReplyBufs} {packets : List Packet} {i : ℕ} {p : Packet} {attr : QPAttr}
    {cor : ℕ} {reply : ReplyValue} {raw : Header} (hp : packets[i]? = some p)
    (hdest : p.dest = attr) (hmsg : p.msg = replyMessage reply raw (Fin.ofNat _ cor))
    (hlt : cor < 128) (hr : core.replyStation[cor]? = some (.waiting cor))
    (hbuf : (bufs cor).length = sizeofReplyValue) :
    (packets[i]?.filter fun p => p.dest = attr) = some p ∧ p.msg.header.corId.val = cor ∧
    receive true callbacks shared u core bufs p =
      .ok ⟨{ core with replyStation := core.replyStation.set cor (.filled cor) },
        Function.update bufs cor reply.toBytes, shared, none, some cor⟩ := by
  refine ⟨?_, ?_, receive_reply hmsg hlt hr hbuf⟩
  · rw [hp, Option.filter_some, decide_eq_true hdest, if_pos rfl]
  · rw [hmsg]
    exact Nat.mod_eq_of_lt hlt

theorem wordOf_toBytes (w : Fin (2 ^ 64)) : wordOf 0 (toBytes 8 w) = w := by
  rw [wordOf, fieldAt_self, show 256 ^ 8 = 2 ^ 64 by norm_num, Nat.mod_eq_of_lt w.isLt,
    Fin.ofNat_val_eq_self]

theorem receive_getRequest {F : Type} {N : ℕ} {fmt : DoubleFormat F} {epsilon : ℕ} {future : Bool}
    {index : RolexIndex F Val N} {u : Uninit} {core : RPCCore} {bufs : ReplyBufs} {p : Packet}
    {cor : ℕ} {key : Key} (hp : p.msg = requestMessage .get (toBytes 8 key) cor)
    {replyc : UDSession} (hs : core.incomingSesions p.immData = some (some replyc)) :
    receive future (serverCallbacks fmt epsilon) index u core bufs p = (do
      let reply ← getReply fmt epsilon index key
      .ok ⟨core, bufs, index,
        some (replyc.sendUnsignaled (replyMessage reply u.header (Fin.ofNat _ cor))), none⟩) := by
  have hpayload : p.msg.body.take p.msg.header.payload = toBytes 8 key := by
    rw [hp]
    exact List.take_of_length_le (length_toBytes 8 key).le
  have hsz : (Fin.ofNat (2 ^ 18) 8).val + sizeofHeader ≤ recvSz := by decide
  rw [receive_of_req (by rw [hp]; exact hsz) (by rw [hp]; rfl) (f := rolexGetCallback fmt epsilon)
    (by rw [hp]; rfl) hs, hpayload, rolexGetCallback, if_pos (length_toBytes 8 key), wordOf_toBytes]
  cases getReply fmt epsilon index key with
  | error e => rfl
  | ok reply =>
    obtain ⟨op, hop, hfin⟩ := replyOp_ok u.header p.msg.header reply
    rw [ok_bind, hop, ok_bind, ok_bind, ok_bind, hfin, hp]
    rfl

theorem getReply_error {F : Type} {N : ℕ} {fmt : DoubleFormat F} {epsilon : ℕ}
    {index : RolexIndex F Val N} {key : Key} {f : RpcFault}
    (h : getReply fmt epsilon index key = .error f) : ∃ e, f = .index e := by
  rw [getReply] at h
  cases hs : index.search fmt epsilon key with
  | error e =>
    rw [hs] at h
    exact ⟨e, (Except.error.inj h).symm⟩
  | ok res =>
    rw [hs] at h
    cases res <;> cases h

theorem search_of_getReply {F : Type} {N : ℕ} {fmt : DoubleFormat F} {epsilon : ℕ}
    {index : RolexIndex F Val N} {key : Key} {reply : ReplyValue}
    (h : getReply fmt epsilon index key = .ok reply) :
    index.search fmt epsilon key = .ok (remoteSearchResult reply.toBytes) := by
  rw [remoteSearchResult, reply.ofBytes_toBytes]
  rw [getReply] at h
  cases hs : index.search fmt epsilon key with
  | error e =>
    rw [hs] at h
    cases h
  | ok res =>
    rw [hs] at h
    cases res with
    | none =>
      obtain rfl := Except.ok.inj h
      rfl
    | some val =>
      obtain rfl := Except.ok.inj h
      rfl

/-! ### Connect -/

def ClientSetup.session (c : ClientSetup) : UDSession := ⟨c.threadId, c.attr⟩

def connectMessage (attr : QPAttr) (raw : Header) : Message :=
  ⟨⟨MsgType.connect.toBits, raw.rpcId, Fin.ofNat _ sizeofQPAttr, raw.corId⟩, attr.toBytes⟩

theorem ClientSetup.connectPacket_ok (c : ClientSetup) (raw : Header) :
    c.connectPacket raw = .ok (c.sender.sendUnsignaled (connectMessage c.attr raw)) := by
  have hset : RPCOp.setMsg ⟨raw, 0, []⟩ 2048 = .ok ⟨raw, 2048, []⟩ := rfl
  have hfit : c.attr.toBytes.length + (sizeofHeader + 0) ≤ 2048 := by
    rw [c.attr.length_toBytes, sizeofQPAttr, sizeofHeader]
    norm_num
  have hlen : c.attr.toBytes.length < 2 ^ 18 := by
    rw [c.attr.length_toBytes, sizeofQPAttr]
    norm_num
  rw [connectPacket, RPCOp.getConnectOp, hset, ok_bind]
  dsimp only [RPCOp.setConnect, RPCOp.setType]
  rw [RPCOp.addArg_ok hfit, ok_bind, RPCOp.finalize_ok hlen]
  dsimp only
  rw [List.nil_append, c.attr.length_toBytes, connectMessage]

theorem RPCCore.addImpl_ok (core : RPCCore) (id : Fin (2 ^ 32)) (attr : QPAttr) :
    ∃ core', core.addImpl id attr.toBytes = .ok core' ∧ core'.replyStation = core.replyStation ∧
      core'.incomingSesions id = some ((core.incomingSesions id).getD (some ⟨id, attr⟩)) ∧
      ∀ id', id' ≠ id → core'.incomingSesions id' = core.incomingSesions id' := by
  rw [RPCCore.addImpl, attr.ofBytes_toBytes]
  dsimp only
  cases hid : core.incomingSesions id with
  | some s => exact ⟨core, rfl, rfl, hid, fun _ _ => rfl⟩
  | none => exact ⟨_, rfl, rfl, Function.update_self .., fun _ hne => Function.update_of_ne hne ..⟩

theorem receive_connect {S : Type} {future : Bool} {callbacks : List (Callback S)} {shared : S}
    {u : Uninit} {core : RPCCore} {bufs : ReplyBufs} {p : Packet} {attr : QPAttr} {raw : Header}
    (hp : p.msg = connectMessage attr raw) : receive future callbacks shared u core bufs p = (do
      let core ← core.addImpl p.immData attr.toBytes
      .ok ⟨core, bufs, shared, none, none⟩) := by
  have hsz : (Fin.ofNat (2 ^ 18) sizeofQPAttr).val + sizeofHeader ≤ recvSz := by decide
  have hpayload : p.msg.body.take p.msg.header.payload = attr.toBytes := by
    rw [hp]
    exact List.take_of_length_le attr.length_toBytes.le
  rw [receive_of_connect (by rw [hp]; exact hsz) (by rw [hp]; rfl), hpayload]

end Rolex
