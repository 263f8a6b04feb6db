import Rolex.RemoteSearch

/-!
The five remote calls of `rolex_client.hpp` and what the callbacks of `rolex_server.hpp` make of
them.
-/

namespace Rolex
open Bytes

/-! ### The calls -/

inductive RemoteOp where
  | search (key : Key)
  | put (key : Key) (val : Val)
  | update (key : Key) (val : Val)
  | remove (key : Key)
  | scan (key : Key) (n : Fin (2 ^ 64))
  deriving DecidableEq, Repr

namespace RemoteOp

variable {F : Type} {N : ℕ} (fmt : DoubleFormat F) (epsilon : ℕ)

def rpcId : RemoteOp → RPCId
  | search _ => .get
  | put _ _ => .put
  | update _ _ => .update
  | remove _ => .delete
  | scan _ _ => .scan

def args : RemoteOp → List Byte
  | search key => toBytes 8 key
  | put key val => toBytes 8 key ++ toBytes 8 val
  | update key val => toBytes 8 key ++ toBytes 8 val
  | remove key => toBytes 8 key
  | scan key n => toBytes 8 key ++ toBytes 8 n

def start : RemoteOp → ℕ → Header → ReplyStation → Except RpcFault (ReplyStation × Message)
  | search key => remoteSearch key
  | put key val => remotePut key val
  | update key val => remoteUpdate key val
  | remove key => remoteRemove key
  | scan key n => remoteScan key n

/-- What the caller gets from the reply buffer: only `remote_search` looks at it. -/
def result : RemoteOp → List Byte → Option Val
  | search _, replyBuf => remoteSearchResult replyBuf
  | _, _ => none

def ofRequest (msg : Message) : RemoteOp :=
  match msg.header.rpcId.val with
  | 0 => search (wordOf 0 msg.body)
  | 1 => put (wordOf 0 msg.body) (wordOf 8 msg.body)
  | 2 => update (wordOf 0 msg.body) (wordOf 8 msg.body)
  | 3 => remove (wordOf 0 msg.body)
  | _ => scan (wordOf 0 msg.body) (wordOf 8 msg.body)

/-- The call on the index itself: what the caller gets, and the index after it. -/
def apply (index : RolexIndex F Val N) : RemoteOp → Except Fault (Option Val × RolexIndex F Val N)
  | search key => do
    let val ← index.search fmt epsilon key
    .ok (val, index)
  | put key val => do
    let res ← index.insert fmt epsilon key val
    .ok (none, res.2)
  | update key val => do
    let res ← index.update fmt epsilon key val
    .ok (none, res.2)
  | remove key => do
    let res ← index.remove fmt epsilon key
    .ok (none, res.2)
  | scan key n => do
    let _ ← index.range fmt epsilon key (toInt32 n % 2 ^ 64).toNat []
    .ok (none, index)

end RemoteOp

/-! ### One request -/

section Request

variable {F : Type} {N : ℕ} {fmt : DoubleFormat F} {epsilon : ℕ}

theorem eq_error_of_bind {ε α β : Type} {x : Except ε α} {f : α → β} {e : ε}
    (h : (x >>= fun a => Except.ok (f a)) = .error e) : x = .error e := by
  rcases bind_eq_error h with h | ⟨_, _, h⟩
  · exact h
  · cases h

theorem ofNat_mod_word (w : Fin (2 ^ 64)) : Fin.ofNat (2 ^ 64) (w.val % 256 ^ 8) = w := by
  rw [show 256 ^ 8 = 2 ^ 64 by norm_num, Nat.mod_eq_of_lt w.isLt, Fin.ofNat_val_eq_self]

@[simp] theorem wordOf_zero_append (w : Fin (2 ^ 64)) (bs : List Byte) :
    wordOf 0 (toBytes 8 w ++ bs) = w := by
  rw [wordOf, fieldAt_zero, ofNat_mod_word]

@[simp] theorem wordOf_eight_append (v w : Fin (2 ^ 64)) :
    wordOf 8 (toBytes 8 v ++ toBytes 8 w) = w := by
  rw [wordOf, fieldAt_append le_rfl, Nat.sub_self, fieldAt_self, ofNat_mod_word]

namespace RemoteOp

theorem length_args_le (op : RemoteOp) : op.args.length ≤ 16 := by
  cases op <;> simp only [args, List.length_append, length_toBytes] <;> norm_num

theorem ofRequest_requestMessage (op : RemoteOp) (cor : ℕ) :
    ofRequest (requestMessage op.rpcId op.args cor) = op := by
  cases op with
  | search key => exact congrArg search (wordOf_toBytes key)
  | put key val => exact congrArg₂ put (wordOf_zero_append key _) (wordOf_eight_append key val)
  | update key val =>
    exact congrArg₂ update (wordOf_zero_append key _) (wordOf_eight_append key val)
  | remove key => exact congrArg remove (wordOf_toBytes key)
  | scan key n => exact congrArg₂ scan (wordOf_zero_append key _) (wordOf_eight_append key n)

theorem start_ok (op : RemoteOp) {station : ReplyStation} {cor : ℕ} {r : ReplyEntry}
    (hlt : cor < 128) (hr : station[cor]? = some r) (hp : r.pendingReplies = 0) (raw : Header) :
    op.start cor raw station =
    .ok (station.set cor (.waiting cor), requestMessage op.rpcId op.args cor) := by
  have hlen := op.length_args_le.trans (by norm_num : 16 ≤ 56)
  cases op with
  | search key => exact remoteSearch_ok hlt hr hp key raw
  | put key val => exact remoteCall_ok hlt hr hp .put hlen raw
  | update key val => exact remoteCall_ok hlt hr hp .update hlen raw
  | remove key => exact remoteCall_ok hlt hr hp .delete hlen raw
  | scan key n => exact remoteCall_ok hlt hr hp .scan hlen raw

def callback (op : RemoteOp) (index : RolexIndex F Val N) (fmt : DoubleFormat F) (epsilon : ℕ)
    (uninit : ReplyValue) : Except RpcFault (ReplyValue × RolexIndex F Val N) :=
  match op with
  | search key => do
    let reply ← getReply fmt epsilon index key
    .ok (reply, index)
  | put key val => do
    let res ← (index.insert fmt epsilon key val).mapError .index
    .ok (uninit, res.2)
  | update key val => do
    let res ← (index.update fmt epsilon key val).mapError .index
    .ok (⟨res.1, val⟩, res.2)
  | remove key => do
    let res ← (index.remove fmt epsilon key).mapError .index
    .ok (⟨res.1, 0⟩, res.2)
  | scan key n => do
    let _ ← (index.range fmt epsilon key (toInt32 n % 2 ^ 64).toNat []).mapError .index
    .ok (uninit, index)

theorem exists_callback (op : RemoteOp) (fmt : DoubleFormat F) (epsilon : ℕ) :
    ∃ f : Callback (RolexIndex F Val N), (serverCallbacks fmt epsilon)[op.rpcId.toNat]? = some f ∧
      ∀ index u h, f index u h op.args = (do
      let res ← op.callback index fmt epsilon u.reply
      let sent ← replyOp u.header h res.1
      .ok (sent, res.2)) := by
  have htwo : ∀ v w : Fin (2 ^ 64), (toBytes 8 v ++ toBytes 8 w).length = 16 := fun v w => by
    rw [List.length_append, length_toBytes, length_toBytes]
  cases op with
  | search key =>
    refine ⟨_, rfl, fun index u h => ?_⟩
    rw [args, rolexGetCallback, if_pos (length_toBytes 8 key), wordOf_toBytes, callback]
    cases getReply fmt epsilon index key <;> rfl
  | put key val =>
    refine ⟨_, rfl, fun index u h => ?_⟩
    rw [args, rolexPutCallback, if_pos (htwo key val), wordOf_zero_append, wordOf_eight_append,
      callback]
    cases index.insert fmt epsilon key val <;> rfl
  | update key val =>
    refine ⟨_, rfl, fun index u h => ?_⟩
    rw [args, rolexUpdateCallback, if_pos (htwo key val), wordOf_zero_append, wordOf_eight_append,
      callback]
    cases index.update fmt epsilon key val <;> rfl
  | remove key =>
    refine ⟨_, rfl, fun index u h => ?_⟩
    rw [args, rolexRemoveCallback, if_pos (length_toBytes 8 key), wordOf_toBytes, callback]
    cases index.remove fmt epsilon key <;> rfl
  | scan key n =>
    refine ⟨_, rfl, fun index u h => ?_⟩
    rw [args, rolexScanCallback, if_pos (htwo key n), wordOf_zero_append, wordOf_eight_append,
      callback]
    cases index.range fmt epsilon key (toInt32 n % 2 ^ 64).toNat [] <;> rfl

theorem receive_request (op : RemoteOp) {future : Bool} {index : RolexIndex F Val N} {u : Uninit}
    {core : RPCCore} {bufs : ReplyBufs} {p : Packet} {cor : ℕ}
    (hp : p.msg = requestMessage op.rpcId op.args cor) {replyc : UDSession}
    (hs : core.incomingSesions p.immData = some (some replyc)) :
    receive future (serverCallbacks fmt epsilon) index u core bufs p = (do
      let res ← op.callback index fmt epsilon u.reply
      .ok ⟨core, bufs, res.2,
        some (replyc.sendUnsignaled (replyMessage res.1 u.header (Fin.ofNat _ cor))), none⟩) := by
  have hsize : p.msg.header.payload.val = op.args.length := by
    rw [hp]
    exact Nat.mod_eq_of_lt (op.length_args_le.trans_lt (by norm_num))
  have hpayload : p.msg.body.take p.msg.header.payload = op.args := by
    rw [hsize, hp]
    exact List.take_length
  have hfit : p.msg.header.payload.val + sizeofHeader ≤ recvSz := by
    have hle := op.length_args_le
    rw [hsize, sizeofHeader, recvSz]
    omega
  have hid : p.msg.header.rpcId.val = op.rpcId.toNat := by
    rw [hp]
    cases op <;> rfl
  obtain ⟨f, hf, hcallback⟩ := op.exists_callback fmt epsilon
  rw [receive_of_req hfit (by rw [hp]; rfl) (f := f) (by rw [hid]; exact hf) hs, hpayload,
    hcallback]
  cases op.callback index fmt epsilon u.reply with
  | error e => rfl
  | ok res =>
    obtain ⟨sent, hsent, hfin⟩ := replyOp_ok u.header p.msg.header res.1
    rw [ok_bind, hsent, ok_bind, ok_bind, ok_bind, hfin, hp]
    rfl

/-- The reply carries what the call gives on the index. -/
theorem callback_of_apply_ok (op : RemoteOp) {index index' : RolexIndex F Val N} {ans : Option Val}
    (h : op.apply fmt epsilon index = .ok (ans, index')) (uninit : ReplyValue) :
    ∃ reply : ReplyValue, op.callback index fmt epsilon uninit = .ok (reply, index') ∧
      op.result reply.toBytes = ans := by
  cases op with
  | search key =>
    obtain ⟨val, hval, h⟩ := bind_eq_ok h
    obtain ⟨rfl, rfl⟩ := Prod.mk.inj (Except.ok.inj h)
    obtain ⟨reply, hreply⟩ : ∃ reply, getReply fmt epsilon index key = .ok reply := by
      rw [getReply, hval]
      cases val <;> exact ⟨_, rfl⟩
    refine ⟨reply, by rw [callback, hreply, ok_bind], ?_⟩
    exact (Except.ok.inj (hval.symm.trans (search_of_getReply hreply))).symm
  | put key val =>
    obtain ⟨res, hres, h⟩ := bind_eq_ok h
    obtain ⟨rfl, rfl⟩ := Prod.mk.inj (Except.ok.inj h)
    exact ⟨uninit, by rw [callback, hres]; rfl, rfl⟩
  | update key val =>
    obtain ⟨res, hres, h⟩ := bind_eq_ok h
    obtain ⟨rfl, rfl⟩ := Prod.mk.inj (Except.ok.inj h)
    exact ⟨⟨res.1, val⟩, by rw [callback, hres]; rfl, rfl⟩
  | remove key =>
    obtain ⟨res, hres, h⟩ := bind_eq_ok h
    obtain ⟨rfl, rfl⟩ := Prod.mk.inj (Except.ok.inj h)
    exact ⟨⟨res.1, 0⟩, by rw [callback, hres]; rfl, rfl⟩
  | scan key n =>
    obtain ⟨vals, hvals, h⟩ := bind_eq_ok h
    obtain ⟨rfl, rfl⟩ := Prod.mk.inj (Except.ok.inj h)
    exact ⟨uninit, by rw [callback, hvals]; rfl, rfl⟩

theorem callback_of_apply_error (op : RemoteOp) {index : RolexIndex F Val N} {e : Fault}
    (h : op.apply fmt epsilon index = .error e) (uninit : ReplyValue) :
    op.callback index fmt epsilon uninit = .error (.index e) := by
  cases op with
  | search key => rw [callback, getReply, eq_error_of_bind h]; rfl
  | put key val => rw [callback, eq_error_of_bind h]; rfl
  | update key val => rw [callback, eq_error_of_bind h]; rfl
  | remove key => rw [callback, eq_error_of_bind h]; rfl
  | scan key n => rw [callback, eq_error_of_bind h]; rfl

end RemoteOp

end Request

end Rolex
