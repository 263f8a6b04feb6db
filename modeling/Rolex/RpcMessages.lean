import Rolex.Index

/-!
The messages of `proto.hh` and `op.hh`, and the table of outstanding replies of `reply_station.hh`.
What the source leaves uninitialised is a parameter.
-/

namespace Rolex
open Bytes

abbrev Val := Fin (2 ^ 64)

inductive RpcFault where
  | bufferTooSmall -- `ASSERT(b.sz >= sizeof(Header))`
  | payloadTooLarge -- `ASSERT(h.payload + sizeof(Header) <= cur_msg.sz)`
  | notImplemented -- "not implemented"
  | rpcCallFailed -- "rpc called failed with rpc id"
  -- `ASSERT(args.sz == ...)` of a callback, and
  -- `ASSERT(op.set_msg(..).set_reply().add_arg(reply))`.
  | badArgs
  | noAttr -- `ASSERT(attr_ptr != nullptr)`
  | nullSession -- A send through a null pointer
  | noSuchCoroutine -- `ASSERT(cor_id < cor_replies.size())`
  | noPendingReply -- `ASSERT(rpc.reply_station.cor_ready(R2_COR_ID()) == false)`
  | addReplyError -- "add reply error"
  | overflowReply -- "overflow reply sz"
  | outOfBounds -- An access outside a vector or a buffer, which nothing checks
  | index (e : Fault) -- The index stops in a callback
  deriving DecidableEq, Repr

inductive MsgType where
  | req
  | reply
  | connect
  deriving DecidableEq, Repr

def MsgType.toBits : MsgType → Fin 4
  | req => 1
  | reply => 2
  | connect => 3

structure Header where
  type : Fin 4
  rpcId : Fin 32
  payload : Fin (2 ^ 18)
  corId : Fin 128
  deriving DecidableEq, Repr

def sizeofHeader : ℕ := 8

structure Message where
  header : Header
  body : List Byte
  deriving DecidableEq, Repr

/-- `content` is what lies between the header and `cur_ptr`. -/
structure RPCOp where
  header : Header
  msgSz : ℕ
  content : List Byte

namespace RPCOp

variable (op : RPCOp)

def curSz : ℕ := sizeofHeader + op.content.length

def setMsg (sz : ℕ) : Except RpcFault RPCOp :=
  if sz ≥ sizeofHeader then .ok { op with msgSz := sz, content := [] } else .error .bufferTooSmall

def setRpcId (id : ℕ) : RPCOp := { op with header := { op.header with rpcId := Fin.ofNat _ id } }

def setType (t : MsgType) : RPCOp := { op with header := { op.header with type := t.toBits } }

def setReq : RPCOp := op.setType .req

def setConnect : RPCOp := op.setType .connect

def setReply : RPCOp := op.setType .reply

def setCorid (id : ℕ) : RPCOp := { op with header := { op.header with corId := Fin.ofNat _ id } }

def addArg (arg : List Byte) : Bool × RPCOp :=
  if arg.length + op.curSz > op.msgSz then (false, op)
    else (true, { op with content := op.content ++ arg })

/-- `finalize`; the payload has 18 bits, and the message ends behind it. -/
def finalize : Message :=
  let payload : Fin (2 ^ 18) := Fin.ofNat _ (op.curSz - sizeofHeader)
  ⟨{ op.header with payload := payload }, op.content.take payload⟩

def getConnectOp (raw : Header) (sz : ℕ) (opaqueData : List Byte) : Except RpcFault RPCOp := do
  let op ← setMsg ⟨raw, 0, []⟩ sz
  .ok (op.setConnect.addArg opaqueData).2

variable {op}

theorem addArg_ok {arg : List Byte} (h : arg.length + op.curSz ≤ op.msgSz) :
    op.addArg arg = (true, { op with content := op.content ++ arg }) := if_neg h.not_gt

theorem finalize_ok (h : op.content.length < 2 ^ 18) :
    op.finalize = ⟨{ op.header with payload := Fin.ofNat _ op.content.length }, op.content⟩ := by
  rw [finalize, curSz, Nat.add_sub_cancel_left]
  dsimp only
  rw [Fin.val_ofNat, Nat.mod_eq_of_lt h, List.take_length]

end RPCOp

/-! ### ReplyValue -/

structure ReplyValue where
  status : Bool
  val : Val
  deriving DecidableEq, Repr

def ReplyValue.toBytes (r : ReplyValue) : List Byte :=
  (if r.status then 1 else 0) :: Bytes.toBytes 8 r.val

def ReplyValue.ofBytes (buf : List Byte) : ReplyValue :=
  ⟨decide (buf.headD 0 ≠ 0), Fin.ofNat _ (Bytes.ofBytes ((buf.drop 1).take 8))⟩

def sizeofReplyValue : ℕ := 9

theorem ofBytes_toBytes_val (v : Fin (2 ^ 64)) : ofBytes (toBytes 8 v) = v :=
  ofBytes_toBytes (by rw [show 256 ^ 8 = 2 ^ 64 by norm_num]; exact v.isLt)

@[simp] theorem ReplyValue.length_toBytes (r : ReplyValue) :
    r.toBytes.length = sizeofReplyValue := by
  rw [toBytes, List.length_cons, Bytes.length_toBytes, sizeofReplyValue]

theorem ReplyValue.ofBytes_toBytes (r : ReplyValue) : ReplyValue.ofBytes r.toBytes = r := by
  have hval : (Bytes.toBytes 8 r.val).take 8 = Bytes.toBytes 8 r.val :=
    List.take_of_length_le (Bytes.length_toBytes ..).le
  rw [ReplyValue.ofBytes, toBytes, List.headD_cons, List.drop_one, List.tail_cons, hval,
    ofBytes_toBytes_val, Fin.ofNat_val_eq_self]
  obtain ⟨status, val⟩ := r
  cases status <;> rfl

/-! ### ReplyStation -/

/-- A reply buffer: the coroutine whose local variable it is, and its size. -/
structure MemBlock where
  memPtr : Option ℕ
  sz : ℕ
  deriving DecidableEq, Repr

/-- `cur_ptr` is an offset in the buffer. -/
structure ReplyEntry where
  pendingReplies : ℕ
  replyBuf : MemBlock
  curPtr : ℕ
  deriving DecidableEq, Repr

def ReplyEntry.construct (replyBuf : MemBlock) : ReplyEntry := ⟨1, replyBuf, 0⟩

def ReplyEntry.default : ReplyEntry := ⟨0, ⟨none, 0⟩, 0⟩

abbrev ReplyStation := List ReplyEntry

abbrev ReplyBufs := ℕ → List Byte

def memcpy (buf : List Byte) (off : ℕ) (bs : List Byte) : List Byte :=
  buf.take off ++ bs ++ buf.drop (off + bs.length)

theorem memcpy_all {buf bs : List Byte} (h : bs.length = buf.length) : memcpy buf 0 bs = bs := by
  rw [memcpy, List.take_zero, List.nil_append, Nat.zero_add, h, List.drop_length, List.append_nil]

namespace ReplyStation

def construct (numCors : ℕ) : ReplyStation := List.replicate numCors ReplyEntry.default

variable (station : ReplyStation) (corId : ℕ)

def addPendingReply (reply : ReplyEntry) : Except RpcFault (Bool × ReplyStation) :=
  match station[corId]? with
  | none => .error .noSuchCoroutine
  | some r => if r.pendingReplies > 0 then .ok (false, station) else .ok (true,
      station.set corId reply)

def corReady : Except RpcFault Bool :=
  match station[corId]? with
  | none => .error .outOfBounds
  | some r => .ok (decide (r.pendingReplies = 0))

/-- `pending_replies` is an `unsigned int`. -/
def appendReply (bufs : ReplyBufs) (payload : List Byte) :
    Except RpcFault (Bool × ReplyStation × ReplyBufs) :=
  match station[corId]? with
  | none => .error .outOfBounds
  | some r =>
    if r.pendingReplies = 0 then .ok (false, station, bufs)
    else if r.curPtr + payload.length ≤ r.replyBuf.sz then
      match r.replyBuf.memPtr with
      | none => .error .outOfBounds
      | some p => .ok (true,
          station.set corId ⟨(r.pendingReplies + (2 ^ 32 - 1)) % 2 ^ 32, r.replyBuf,
          r.curPtr + payload.length⟩, Function.update bufs p (memcpy (bufs p) r.curPtr payload))
    else .error .overflowReply

end ReplyStation
end Rolex
