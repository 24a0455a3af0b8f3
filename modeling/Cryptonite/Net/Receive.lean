import Cryptonite.Core.Serialize

/-!
# Cutting the bytes of a peer into messages

A message is a header of 24 bytes, with the length of what follows in it, and that many bytes. The
pieces in which they arrive may end anywhere in one.
-/

namespace Cryptonite

open Codec

/-- `CMessageHeader`, from the bytes of `hdrbuf`. -/
structure MessageHeader where
  bytes : List UInt8

def MessageHeader.nMessageSize (hdr : MessageHeader) : ℕ := leNat ((hdr.bytes.drop 16).take 4)

/-- The size of the buffer that is filled: of `hdrbuf`, or of `vRecv` if there is a header. -/
def bufferSize (hdr : Option MessageHeader) : ℕ := (hdr.map (·.nMessageSize)).getD 24

/-- `CNetMessage`. There is a header if `in_data` is set. What has been copied into the buffer that
is filled is `buf`, so that its length is `nHdrPos` or `nDataPos`. -/
structure NetMessage where
  hdr : Option MessageHeader
  buf : List UInt8
  fits : buf.length < bufferSize hdr ∨ hdr.isSome ∧ buf.length = bufferSize hdr

namespace NetMessage

def new : NetMessage := ⟨none, [], .inl (by decide)⟩

def complete (m : NetMessage) : Bool := m.hdr.isSome && m.buf.length == bufferSize m.hdr

def nRemaining (m : NetMessage) : ℕ := bufferSize m.hdr - m.buf.length

/-- What is done when the buffer is full; none if the header is refused. -/
def filled : ∀ hdr (buf : List UInt8), buf.length = bufferSize hdr → Option NetMessage
  | none, buf, _ =>
    let hdr : MessageHeader := ⟨buf⟩
    if hdr.nMessageSize > MAX_SIZE then none else
      some ⟨hdr, [], (Nat.eq_zero_or_pos hdr.nMessageSize).symm.imp id fun h ↦ ⟨rfl, h.symm⟩⟩
  | some hdr, buf, h => some ⟨hdr, buf, .inr ⟨rfl, h⟩⟩

/-- `readHeader` and `readData`, given what is in the buffer with the bytes of `pch` behind it; as
many are kept as go into it. -/
def fill (hdr : Option MessageHeader) (buf : List UInt8) : Option NetMessage :=
  if h : buf.length < bufferSize hdr then some ⟨hdr, buf, .inl h⟩
  else filled hdr (buf.take (bufferSize hdr)) (List.length_take_of_le (not_lt.mp h))

def read (m : NetMessage) (pch : List UInt8) : Option NetMessage := fill m.hdr (m.buf ++ pch)

theorem nRemaining_pos {m : NetMessage} (h : m.complete = false) : 0 < m.nRemaining := by
  rcases m.fits with hlt | ⟨hhdr, heq⟩
  · exact Nat.sub_pos_of_lt hlt
  · simp [complete, hhdr, heq] at h

theorem fill_append {hdr : Option MessageHeader} {buf : List UInt8}
    (h : bufferSize hdr ≤ buf.length) (b : List UInt8) : fill hdr (buf ++ b) = fill hdr buf := by
  have h' : bufferSize hdr ≤ (buf ++ b).length := by simp; omega
  simp only [fill, dif_neg (not_lt.mpr h), dif_neg (not_lt.mpr h'), List.take_append_of_le_length h]

theorem exists_read {m : NetMessage} {a : List UInt8} (h : a.length < m.nRemaining) :
    ∃ m', m.read a = some m' ∧ m'.complete = false ∧ m'.nRemaining = m.nRemaining - a.length ∧
      ∀ b, m.read (a ++ b) = m'.read b := by
  have hlt : (m.buf ++ a).length < bufferSize m.hdr := by
    rw [nRemaining] at h
    simp; omega
  refine ⟨⟨m.hdr, m.buf ++ a, .inl hlt⟩, dif_pos hlt, ?_, ?_, fun b ↦ ?_⟩
  · rw [complete, beq_false_of_ne hlt.ne, Bool.and_false]
  · simp [nRemaining, Nat.sub_sub]
  · rw [read, read, List.append_assoc]

end NetMessage

open NetMessage

/-- The message that is read on, a new one if the last is complete, and those before it. -/
def current (vRecvMsg : List NetMessage) : List NetMessage × NetMessage :=
  match vRecvMsg.getLast? with
  | none => ([], new)
  | some msg => if msg.complete then (vRecvMsg, new) else (vRecvMsg.dropLast, msg)

theorem current_complete (q : List NetMessage) : (current q).2.complete = false := by
  rw [current]
  split
  · rfl
  · split
    · rfl
    · next h => simpa using h

/-- `CNode::ReceiveMsgBytes`; none if it returns false, and the connection is closed. -/
def receiveMsgBytes (vRecvMsg : List NetMessage) (pch : List UInt8) : Option (List NetMessage) :=
  if pch = [] then some vRecvMsg else
    ((current vRecvMsg).2.read pch).bind fun msg ↦
      receiveMsgBytes ((current vRecvMsg).1 ++ [msg]) (pch.drop (current vRecvMsg).2.nRemaining)
termination_by pch.length
decreasing_by
  have := nRemaining_pos (current_complete vRecvMsg)
  have := List.length_pos_iff.mpr ‹pch ≠ []›
  rw [List.length_drop]
  omega

@[simp] theorem receiveMsgBytes_nil (q : List NetMessage) : receiveMsgBytes q [] = some q := by
  rw [receiveMsgBytes, if_pos rfl]

theorem receiveMsgBytes_append (q : List NetMessage) (a b : List UInt8) :
    receiveMsgBytes q (a ++ b) = (receiveMsgBytes q a).bind (receiveMsgBytes · b) := by
  induction hn : a.length using Nat.strongRecOn generalizing q a with
  | _ n ih =>
    rcases eq_or_ne a [] with rfl | ha
    · simp
    rcases eq_or_ne b [] with rfl | hb
    · simp
    have hpos := nRemaining_pos (current_complete q)
    rw [receiveMsgBytes.eq_def q (a ++ b), receiveMsgBytes.eq_def q a, if_neg ha,
      if_neg (List.append_ne_nil_of_left_ne_nil ha b)]
    rcases le_or_gt (current q).2.nRemaining a.length with hle | hlt
    · -- the buffer is filled from `a`
      have hfull : bufferSize (current q).2.hdr ≤ ((current q).2.buf ++ a).length := by
        rw [nRemaining] at hle
        simp; omega
      rw [NetMessage.read, ← List.append_assoc, fill_append hfull,
        List.drop_append_of_le_length hle, Option.bind_assoc]
      refine congrArg _ (funext fun msg ↦ ih _ ?_ _ _ rfl)
      have := List.length_pos_iff.mpr ha
      rw [List.length_drop]
      omega
    · -- it takes all of `a`, and then what it can of `b`
      obtain ⟨m, hread, hm, hremaining, happend⟩ := exists_read hlt
      have hcurrent : current ((current q).1 ++ [m]) = ((current q).1, m) := by simp [current, hm]
      rw [happend, hread, Option.bind_some, List.drop_of_length_le hlt.le, receiveMsgBytes_nil,
        Option.bind_some, receiveMsgBytes.eq_def _ b, if_neg hb, hcurrent, List.drop_append,
        List.drop_of_length_le hlt.le, List.nil_append, hremaining]

/-- **The pieces do not matter.** Whatever a peer sends, the node is left with the same messages, or
closes the connection, as if it had been given all the bytes at once. -/
theorem receiveMsgBytes_flatten (q : List NetMessage) (pieces : List (List UInt8)) :
    pieces.foldlM receiveMsgBytes q = receiveMsgBytes q pieces.flatten := by
  induction pieces generalizing q with
  | nil => simp
  | cons pch pieces ih =>
    rw [List.foldlM_cons, List.flatten_cons, receiveMsgBytes_append]
    exact congrArg _ (funext ih)

end Cryptonite
