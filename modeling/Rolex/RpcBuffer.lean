import Rolex.Foundations.BitFields
import Rolex.RpcMessages

/-!
The messages of `op.hh` in the memory of the sender. An `RPCOp` writes its arguments behind a moving
pointer and the header in front of them; the receiver parses the same bytes.
-/

namespace Rolex
open BitFields Bytes

/-! ### The header in memory -/

namespace Header

def fields (h : Header) : List Field := [⟨2, h.type⟩, ⟨5, h.rpcId⟩, ⟨18, h.payload⟩, ⟨7, h.corId⟩]

/-- The struct is aligned to 8 bytes, of which the bit fields take 4. -/
def toBytes (h : Header) (padding : Fin (2 ^ 32)) : List Byte :=
  Bytes.toBytes 4 (pack h.fields) ++ Bytes.toBytes 4 padding

def ofBytes (bs : List Byte) : Header :=
  let w := Bytes.ofBytes (bs.take 4)
  ⟨read 0 2 w, read 2 5 w, read 7 18 w, read 25 7 w⟩

@[simp] theorem length_toBytes (h : Header) (padding : Fin (2 ^ 32)) :
    (h.toBytes padding).length = sizeofHeader := by
  rw [toBytes, List.length_append, Bytes.length_toBytes, Bytes.length_toBytes, sizeofHeader]

theorem ofBytes_toBytes (h : Header) (padding : Fin (2 ^ 32)) :
    ofBytes (h.toBytes padding) = h := by
  have hlt : pack h.fields < 256 ^ 4 := (pack_lt h.fields).trans_eq (by norm_num [fields, bits])
  have htake : (h.toBytes padding).take 4 = Bytes.toBytes 4 (pack h.fields) :=
    List.take_left' (Bytes.length_toBytes 4 _)
  unfold ofBytes
  rw [htake, Bytes.ofBytes_toBytes hlt]
  have htype := read_pack [] [⟨5, h.rpcId⟩, ⟨18, h.payload⟩, ⟨7, h.corId⟩] ⟨2, h.type⟩
  have hrpcId := read_pack [⟨2, h.type⟩] [⟨18, h.payload⟩, ⟨7, h.corId⟩] ⟨5, h.rpcId⟩
  have hpayload := read_pack [⟨2, h.type⟩, ⟨5, h.rpcId⟩] [⟨7, h.corId⟩] ⟨18, h.payload⟩
  have hcorId := read_pack [⟨2, h.type⟩, ⟨5, h.rpcId⟩, ⟨18, h.payload⟩] [] ⟨7, h.corId⟩
  exact congr (congr (congr (congrArg Header.mk htype) hrpcId) hpayload) hcorId

end Header

/-! ### RPCOp -/

theorem RPCOp.addArg_content (a : RPCOp) (bs : List Byte) :
    (a.addArg bs).2.content = a.content ++ if (a.addArg bs).1 then bs else [] := by
  unfold addArg
  split
  · exact (List.append_nil _).symm
  · rfl

theorem RPCOp.addArg_header (a : RPCOp) (bs : List Byte) : (a.addArg bs).2.header = a.header := by
  unfold addArg
  split <;> rfl

/-- The fields of `RPCOp` with those of its `msg`. Pointers are addresses. -/
structure MemOp where
  header : Header
  padding : Fin (2 ^ 32)
  memPtr : ℕ
  sz : ℕ
  curPtr : ℕ

namespace MemOp

/-- `usize` is `unsigned int`. -/
def curSz (op : MemOp) : ℕ := (op.curPtr - op.memPtr) % 2 ^ 32

def setMsg (op : MemOp) (memPtr sz : ℕ) : Except RpcFault MemOp :=
  if sz ≥ sizeofHeader then
    .ok { op with memPtr := memPtr, sz := sz, curPtr := memPtr + sizeofHeader }
  else .error .bufferTooSmall

def setType (op : MemOp) (t : MsgType) : MemOp :=
  { op with header := { op.header with type := t.toBits } }

def setRpcId (op : MemOp) (id : ℕ) : MemOp :=
  { op with header := { op.header with rpcId := Fin.ofNat _ id } }

def setCorid (op : MemOp) (id : ℕ) : MemOp :=
  { op with header := { op.header with corId := Fin.ofNat _ id } }

/-- A store to the buffer, which nothing in the source checks. -/
def store (op : MemOp) (m : Memory) (p : ℕ) (bs : List Byte) : Except RpcFault Memory :=
  if op.memPtr ≤ p ∧ p + bs.length ≤ op.memPtr + op.sz then .ok (m.write p bs)
    else .error .outOfBounds

def add (op : MemOp) (m : Memory) (bs : List Byte) : Except RpcFault (Bool × MemOp × Memory) :=
  if bs.length + op.curSz > op.sz then .ok (false, op, m)
  else do
    let m ← op.store m op.curPtr bs
    .ok (true, { op with curPtr := op.curPtr + bs.length }, m)

def addArg : MemOp → Memory → List Byte → Except RpcFault (Bool × MemOp × Memory) := add

def addOpaque : MemOp → Memory → List Byte → Except RpcFault (Bool × MemOp × Memory) := add

def finalize (op : MemOp) (m : Memory) : Except RpcFault (MemOp × Memory) := do
  let header := { op.header with payload := Fin.ofNat _ (op.curSz - sizeofHeader) }
  let m ← op.store m op.memPtr (header.toBytes op.padding)
  .ok ({ op with header := header, sz := header.payload + sizeofHeader }, m)

inductive Arg where
  | arg (bs : List Byte)
  | str (data : List Byte)

def Arg.bytes : Arg → List Byte
  | arg bs => bs
  | str data => data

def call (op : MemOp) (m : Memory) : Arg → Except RpcFault (Bool × MemOp × Memory)
  | .arg bs => op.addArg m bs
  | .str data => op.addOpaque m data

def calls (op : MemOp) (m : Memory) : List Arg → Except RpcFault (List Bool × MemOp × Memory)
  | [] => .ok ([], op, m)
  | a :: as => do
    let res ← op.call m a
    let rest ← res.2.1.calls res.2.2 as
    .ok (res.1 :: rest.1, rest.2)

def build (op : MemOp) (m : Memory) (memPtr sz : ℕ) (t : MsgType) (rpcId corId : ℕ)
    (args : List Arg) : Except RpcFault (List Bool × MemOp × Memory) := do
  let op ← op.setMsg memPtr sz
  let added ← (((op.setType t).setRpcId rpcId).setCorid corId).calls m args
  let msg ← added.2.1.finalize added.2.2
  .ok (added.1, msg)

def parse (m : Memory) (memPtr sz : ℕ) : Except RpcFault (Header × List Byte) :=
  if sz ≥ sizeofHeader then
    let h := Header.ofBytes (m.read memPtr sizeofHeader)
    if h.payload + sizeofHeader ≤ sz then .ok (h, m.read (memPtr + sizeofHeader) h.payload)
      else .error .payloadTooLarge
  else .error .bufferTooSmall

/-! ### The operations on the buffer are those on byte lists -/

/-- The message that is built in the buffer from `base` to `base + size`; outside it the memory is
still `m₀`. -/
structure Shows (m₀ : Memory) (base size : ℕ) (op : MemOp) (m : Memory) (a : RPCOp) : Prop where
  memPtr : op.memPtr = base
  sz : op.sz = size
  msgSz : a.msgSz = size
  header : op.header = a.header
  cur : op.curPtr = base + a.curSz
  fits : a.curSz ≤ size
  content : m.read (base + sizeofHeader) a.content.length = a.content
  frame : ∀ p, p < base ∨ base + size ≤ p → m p = m₀ p

namespace Shows

variable {m₀ m : Memory} {base size : ℕ} {op : MemOp} {a : RPCOp}

theorem start (m : Memory) (base : ℕ) {size : ℕ} (hsz : sizeofHeader ≤ size) (h : Header)
    (padding : Fin (2 ^ 32)) :
    Shows m base size ⟨h, padding, base, size, base + sizeofHeader⟩ m ⟨h, size, []⟩ where
  memPtr := rfl
  sz := rfl
  msgSz := rfl
  header := rfl
  cur := rfl
  fits := hsz
  content := rfl
  frame _ _ := rfl

theorem setType (h : Shows m₀ base size op m a) (t : MsgType) :
    Shows m₀ base size (op.setType t) m (a.setType t) :=
  { h with header := congrArg (fun x : Header => { x with type := t.toBits }) h.header }

theorem setRpcId (h : Shows m₀ base size op m a) (id : ℕ) :
    Shows m₀ base size (op.setRpcId id) m (a.setRpcId id) :=
  { h with header := congrArg (fun x : Header => { x with rpcId := Fin.ofNat _ id }) h.header }

theorem setCorid (h : Shows m₀ base size op m a) (id : ℕ) :
    Shows m₀ base size (op.setCorid id) m (a.setCorid id) :=
  { h with header := congrArg (fun x : Header => { x with corId := Fin.ofNat _ id }) h.header }

theorem curSz_eq (h : Shows m₀ base size op m a) (hsz : size < 2 ^ 32) : op.curSz = a.curSz := by
  unfold curSz
  rw [h.cur, h.memPtr, Nat.add_sub_cancel_left, Nat.mod_eq_of_lt (h.fits.trans_lt hsz)]

theorem store_frame (h : Shows m₀ base size op m a) {off : ℕ} {bs : List Byte}
    (hoff : off + bs.length ≤ size) (p : ℕ) (hp : p < base ∨ base + size ≤ p) :
    m.write (base + off) bs p = m₀ p := by
  rw [m.write_outside _ (by omega)]
  exact h.frame p hp

theorem store_ok (h : Shows m₀ base size op m a) {off : ℕ} {bs : List Byte}
    (hoff : off + bs.length ≤ size) :
    op.store m (base + off) bs = .ok (m.write (base + off) bs) := by
  unfold store
  rw [h.memPtr, h.sz]
  exact if_pos ⟨Nat.le_add_right _ _, by omega⟩

/-- The buffer answers as the byte list does, and a refused argument leaves no trace. -/
theorem add (h : Shows m₀ base size op m a) (hsz : size < 2 ^ 32) (bs : List Byte) :
    ∃ op' m', op.add m bs = .ok ((a.addArg bs).1, op', m') ∧
      Shows m₀ base size op' m' (a.addArg bs).2 := by
  have hcur := h.curSz_eq hsz
  by_cases hbig : bs.length + a.curSz > size
  · have hop : op.add m bs = .ok (false, op, m) := if_pos (by rw [hcur, h.sz]; exact hbig)
    have ha : a.addArg bs = (false, a) := if_pos (by rw [h.msgSz]; exact hbig)
    rw [hop, ha]
    exact ⟨op, m, rfl, h⟩
  · have hroom : a.curSz + bs.length ≤ size := by omega
    have hop : op.add m bs =
        .ok (true, { op with curPtr := op.curPtr + bs.length }, m.write (base + a.curSz) bs) := by
      unfold MemOp.add
      rw [if_neg (by rw [hcur, h.sz]; exact hbig), h.cur, h.store_ok hroom, ok_bind]
    have hmsg : bs.length + a.curSz ≤ a.msgSz := by
      rw [h.msgSz]
      omega
    have ha := a.addArg_ok hmsg
    have hlen : sizeofHeader + (a.content ++ bs).length = a.curSz + bs.length := by
      rw [List.length_append, RPCOp.curSz, Nat.add_assoc]
    rw [hop, ha]
    refine ⟨_, _, rfl, h.memPtr, h.sz, h.msgSz, h.header, ?_, hlen.trans_le hroom, ?_,
      h.store_frame hroom⟩
    · change op.curPtr + bs.length = base + (sizeofHeader + (a.content ++ bs).length)
      rw [h.cur, hlen, Nat.add_assoc]
    · -- the old arguments stay, the new one stands behind them
      have hat : base + sizeofHeader + a.content.length = base + a.curSz := Nat.add_assoc _ _ _
      have hold : (m.write (base + a.curSz) bs).read (base + sizeofHeader) a.content.length =
          a.content := by
        rw [Memory.read_write_apart _ _ (Or.inl hat.le), h.content]
      rw [List.length_append, Memory.read_add, hold, hat, Memory.read_write_self]

theorem finalize (h : Shows m₀ base size op m a) (hsz : size ≤ sizeofHeader + (2 ^ 18 - 1)) :
    ∃ op' m', op.finalize m = .ok (op', m') ∧
      parse m' op'.memPtr op'.sz = .ok (a.finalize.header, a.finalize.body) ∧
      ∀ p, p < base ∨ base + size ≤ p → m' p = m₀ p := by
  have hcur := h.curSz_eq (hsz.trans_lt (by norm_num [sizeofHeader]))
  have hfits := h.fits
  have hcurSz : a.curSz = sizeofHeader + a.content.length := rfl
  have hlen : a.content.length < 2 ^ 18 := by omega
  set header : Header := { a.header with payload := Fin.ofNat _ a.content.length } with hheader
  have hpayload : (header.payload : ℕ) = a.content.length := Nat.mod_eq_of_lt hlen
  have hin : 0 + (header.toBytes op.padding).length ≤ size := by
    rw [Header.length_toBytes]
    omega
  have hstore := h.store_ok hin
  rw [Nat.add_zero] at hstore
  refine ⟨{ op with header := header, memPtr := base, sz := header.payload + sizeofHeader },
    m.write base (header.toBytes op.padding), ?_, ?_, ?_⟩
  · unfold MemOp.finalize
    rw [hcur, hcurSz, Nat.add_sub_cancel_left, h.header]
    change (op.store m op.memPtr (header.toBytes op.padding) >>= _) = _
    rw [h.memPtr, hstore, ok_bind]
  · have hhead := m.read_write_self base (header.toBytes op.padding)
    have hbody : (m.write base (header.toBytes op.padding)).read
        (base + sizeofHeader) a.content.length = a.content := by
      rw [Memory.read_write_apart _ _ (Or.inr (by rw [Header.length_toBytes])), h.content]
    rw [Header.length_toBytes] at hhead
    rw [RPCOp.finalize_ok hlen, parse, if_pos (Nat.le_add_left _ _), hhead, Header.ofBytes_toBytes,
      if_pos le_rfl, hpayload, hbody]
  · exact h.store_frame hin

end Shows

/-! ### A message from `set_msg` to its receiver -/

theorem call_eq (op : MemOp) (m : Memory) (arg : Arg) : op.call m arg = op.add m arg.bytes := by
  cases arg <;> rfl

def accepted (answers : List Bool) (args : List Arg) : List Byte :=
  ((answers.zip args).filter Prod.fst).flatMap fun q => q.2.bytes

theorem accepted_cons (b : Bool) (answers : List Bool) (arg : Arg) (args : List Arg) :
    accepted (b :: answers) (arg :: args) =
    (if b then arg.bytes else []) ++ accepted answers args := by
  unfold accepted
  cases b <;> rfl

/-- An argument is accepted exactly when it fits behind those accepted before it. -/
def answersFor : ℕ → List Arg → List Bool
  | _, [] => []
  | room, arg :: args =>
    if arg.bytes.length ≤ room then true :: answersFor (room - arg.bytes.length) args
    else false :: answersFor room args

theorem Shows.calls {m₀ m : Memory} {base size : ℕ} {op : MemOp} {a : RPCOp}
    (h : Shows m₀ base size op m a) (hsz : size < 2 ^ 32) (args : List Arg) :
    ∃ answers op' m' a', op.calls m args = .ok (answers, op', m') ∧ answers.length = args.length ∧
      answers = answersFor (size - a.curSz) args ∧ Shows m₀ base size op' m' a' ∧
      a'.header = a.header ∧ a'.content = a.content ++ accepted answers args := by
  induction args generalizing op m a with
  | nil => exact ⟨[], op, m, a, rfl, rfl, rfl, h, rfl, (List.append_nil _).symm⟩
  | cons arg args ih =>
    obtain ⟨op₁, m₁, hadd, h₁⟩ := h.add hsz arg.bytes
    obtain ⟨answers, op', m', a', hrest, hlen, hanswers, h', hheader, hcontent⟩ := ih h₁
    refine ⟨(a.addArg arg.bytes).1 :: answers, op', m', a', ?_, congrArg Nat.succ hlen, ?_, h', ?_,
      ?_⟩
    · rw [MemOp.calls, call_eq, hadd, ok_bind, hrest, ok_bind]
    · have hfits := h.fits
      rw [hanswers, answersFor]
      by_cases hroom : arg.bytes.length ≤ size - a.curSz
      · have hcur : (a.addArg arg.bytes).2.curSz = a.curSz + arg.bytes.length := by
          rw [a.addArg_ok (by rw [h.msgSz]; omega), RPCOp.curSz, RPCOp.curSz]
          dsimp only
          rw [List.length_append, Nat.add_assoc]
        rw [if_pos hroom, hcur, a.addArg_ok (by rw [h.msgSz]; omega), Nat.sub_add_eq]
      · have ha : a.addArg arg.bytes = (false, a) := if_pos (by rw [h.msgSz]; omega)
        rw [if_neg hroom, ha]
    · rw [hheader, RPCOp.addArg_header]
    · rw [hcontent, RPCOp.addArg_content, accepted_cons, List.append_assoc]

theorem call_false {op : MemOp} {m : Memory} {arg : Arg} {r : MemOp × Memory}
    (h : op.call m arg = .ok (false, r)) : r = (op, m) := by
  rw [call_eq, MemOp.add] at h
  split at h
  · exact (Prod.mk.inj (Except.ok.inj h)).2.symm
  · obtain ⟨m', _, h⟩ := bind_eq_ok h
    cases h

/-- Every message arrives as it was built, and no store leaves its buffer. -/
theorem build_parse (op : MemOp) (m : Memory) (base : ℕ) {size : ℕ} (hlo : sizeofHeader ≤ size)
    (hhi : size ≤ sizeofHeader + (2 ^ 18 - 1)) (t : MsgType) {rpcId corId : ℕ} (hrpc : rpcId < 32)
    (hcor : corId < 128) (args : List Arg) :
    (∀ (o : MemOp) (mem : Memory) (arg : Arg) (r : MemOp × Memory),
      o.call mem arg = .ok (false, r) → r = (o, mem)) ∧
      ∃ answers op' m' h, op.build m base size t rpcId corId args = .ok (answers, op', m') ∧
        answers.length = args.length ∧ answers = answersFor (size - sizeofHeader) args ∧
        (∀ p, p < base ∨ base + size ≤ p → m' p = m p) ∧
        parse m' op'.memPtr op'.sz = .ok (h, accepted answers args) ∧
        h.type = t.toBits ∧ (h.rpcId : ℕ) = rpcId ∧ (h.corId : ℕ) = corId := by
  refine ⟨fun _ _ _ _ h => call_false h, ?_⟩
  have hstart := (((Shows.start m base hlo op.header op.padding).setType t).setRpcId rpcId).setCorid
    corId
  obtain ⟨answers, op₁, m₁, a, hcalls, hlen, hanswers, hshows, hheader, hcontent⟩ :=
    hstart.calls (hhi.trans_lt (by norm_num [sizeofHeader])) args
  obtain ⟨op', m', hfin, hparse, hframe⟩ := hshows.finalize hhi
  have hfits := hshows.fits
  have hsmall : a.content.length < 2 ^ 18 := by
    have hcur : a.curSz = sizeofHeader + a.content.length := rfl
    omega
  have hbody : a.content = accepted answers args := hcontent.trans (List.nil_append _)
  rw [RPCOp.finalize_ok hsmall, hheader, hbody] at hparse
  refine ⟨answers, op', m', _, ?_, hlen, hanswers, hframe, hparse, rfl, Nat.mod_eq_of_lt hrpc,
    Nat.mod_eq_of_lt hcor⟩
  unfold MemOp.build MemOp.setMsg
  rw [if_pos hlo, ok_bind, hcalls, ok_bind, hfin, ok_bind]

theorem build_parse_three : ∃ op' m' h, (MemOp.mk ⟨0, 0, 0, 0⟩ 0 0 0 0).build (fun _ => 0) 4096 14
      .req 3 127 [.arg [1, 2, 3, 4], .str [5, 6, 7], .arg [8, 9]] =
        .ok ([true, false, true], op', m') ∧
    (∀ p, p < 4096 ∨ 4096 + 14 ≤ p → m' p = 0) ∧
    parse m' op'.memPtr op'.sz = .ok (h, [1, 2, 3, 4, 8, 9]) ∧
    h.type = MsgType.req.toBits ∧ (h.rpcId : ℕ) = 3 ∧ (h.corId : ℕ) = 127 := by
  obtain ⟨_, answers, op', m', h, hbuild, _, hanswers, hframe, hparse, htype, hrpc, hcor⟩ :=
    build_parse (MemOp.mk ⟨0, 0, 0, 0⟩ 0 0 0 0) (fun _ => 0) 4096 (by decide : sizeofHeader ≤ 14)
      (by decide) .req (by decide : 3 < 32) (by decide : 127 < 128)
      [.arg [1, 2, 3, 4], .str [5, 6, 7], .arg [8, 9]]
  obtain rfl : answers = [true, false, true] := hanswers.trans (by decide)
  exact ⟨op', m', h, hbuild, hframe, hparse, htype, hrpc, hcor⟩

end MemOp
end Rolex
