import BoltWire.MessageBuf

/-!
# `ChunkDecoder`: the read side of chunked transfer

    Chunk     = [u16 BE size][size bytes of payload]
    EndMarker = [0x00, 0x00]

The state machine of the decoder: `handleHeader` for a completed chunk header, `feedStep` for one
round of the loop of `feed`, `feeds` for a sequence of calls of `feed` on one decoder (also after an
error).  The elements of the fed data are of any type `β` with a byte value (`Octet`): `UInt8`
itself, or a byte that remembers where it came from.
-/

namespace Bolt
open Rust Rust.Call

class Octet (β : Type) where
  val : β → UInt8

instance : Octet UInt8 where
  val b := b

def defaultMaxMessageSize : Usize := 16 * 1024 * 1024
def defaultMaxSegmentsPerMessage : Usize := 1024

inductive ChunkError where
  | messageTooLarge (size max : Nat)
  | tooManySegments (segments max : Nat)
  | defunct
  deriving DecidableEq, Repr

inductive DecoderState where
  | readingHeader
  | readingHeaderByte2 (firstByte : UInt8)
  | readingPayload (remaining : UInt16)
  | defunct
  deriving DecidableEq, Repr

structure ChunkDecoder (β : Type) where
  pending : List (List β)
  pendingSize : Nat
  state : DecoderState
  maxMessageSize : Usize
  maxSegmentsPerMessage : Usize
  deriving DecidableEq, Repr

namespace ChunkDecoder
variable {β : Type}

def withMaxMessageSize (max : Usize) : ChunkDecoder β where
  pending := []
  pendingSize := 0
  state := .readingHeader
  maxMessageSize := max
  maxSegmentsPerMessage := defaultMaxSegmentsPerMessage

def withMaxSegmentsPerMessage (self : ChunkDecoder β) (max : Usize) : ChunkDecoder β :=
  { self with maxSegmentsPerMessage := max }

def new : ChunkDecoder β where
  pending := []
  pendingSize := 0
  state := .readingHeader
  maxMessageSize := defaultMaxMessageSize
  maxSegmentsPerMessage := defaultMaxSegmentsPerMessage

/-- a decoder before its first feed, with any limits -/
def fresh (maxSize maxSegs : Usize) : ChunkDecoder β :=
  (withMaxMessageSize maxSize).withMaxSegmentsPerMessage maxSegs

theorem new_eq_fresh :
    (new : ChunkDecoder β) = fresh defaultMaxMessageSize defaultMaxSegmentsPerMessage := rfl

def handleHeader (size : UInt16) (messages : List (MessageBuf β)) :
    Call (ChunkDecoder β) ChunkError (List (MessageBuf β)) := do
  let self ← get
  if size = 0 then do
    -- end of message: drain `pending` into a new `MessageBuf`
    set { self with pending := [], pendingSize := 0, state := .readingHeader }
    pure (messages ++ [MessageBuf.fromChunks self.pending])
  else
    let newSize := checkedAdd self.pendingSize size.toNat
    if newSize.all (fun s => decide (self.maxMessageSize.val < s)) then do
      let reportedSize := saturatingAdd self.pendingSize size.toNat
      set { self with pending := [], pendingSize := 0, state := .defunct }
      err (.messageTooLarge reportedSize self.maxMessageSize.val)
    else do
      set { self with state := .readingPayload size }
      pure messages

/-- `!data.is_empty()`, where `p` is the unread data and the messages so far -/
def unread (p : List β × List (MessageBuf β)) : Bool := !p.1.isEmpty

variable [Octet β]

/-- one round of the loop of `feed` -/
def feedStep (p : List β × List (MessageBuf β)) :
    Call (ChunkDecoder β) ChunkError (List β × List (MessageBuf β)) := do
  let self ← get
  match self.state with
  | .readingHeader =>
    if 2 ≤ p.1.length then do
      let b0 ← index p.1 0
      let b1 ← index p.1 1
      let data ← dropFront p.1 2
      let messages ← handleHeader (u16FromBe [Octet.val b0, Octet.val b1]) p.2
      pure (data, messages)
    else do
      let b0 ← index p.1 0
      set { self with state := .readingHeaderByte2 (Octet.val b0) }
      let data ← dropFront p.1 1
      pure (data, p.2)
  | .readingHeaderByte2 firstByte => do
    let b0 ← index p.1 0
    let data ← dropFront p.1 1
    let messages ← handleHeader (u16FromBe [firstByte, Octet.val b0]) p.2
    pure (data, messages)
  | .readingPayload remaining => do
    let toTake := min remaining.toNat p.1.length
    let split ← splitTo p.1 toTake
    let self := { self with
      pending := self.pending ++ [split.1]
      pendingSize := saturatingAdd self.pendingSize toTake }
    set self
    if self.maxSegmentsPerMessage.val < self.pending.length then do
      set { self with pending := [], pendingSize := 0, state := .defunct }
      err (.tooManySegments self.pending.length self.maxSegmentsPerMessage.val)
    else do
      let left ← checkedSub remaining.toNat (UInt16.ofNat toTake).toNat
      set { self with
        state := if left = 0 then .readingHeader else .readingPayload (UInt16.ofNat left) }
      pure (split.2, p.2)
  | .defunct => err .defunct

def feed (data : List β) : Call (ChunkDecoder β) ChunkError (List (MessageBuf β)) := do
  let self ← get
  if self.state = .defunct then err .defunct
  else do
    let p ← whileLoop unread feedStep (data.length + 1) (data, [])
    pure p.2

/-- what the calls of `feed` return, in order, and the decoder after them -/
def feeds : List (List β) → ChunkDecoder β →
    List (Res ChunkError (List (MessageBuf β))) × ChunkDecoder β
  | [], self => ([], self)
  | data :: rest, self =>
    let t := feeds rest (feed data self).2
    ((feed data self).1 :: t.1, t.2)

theorem feeds_cons (data : List β) (rest : List (List β)) (self : ChunkDecoder β) :
    feeds (data :: rest) self = ((feed data self).1 :: (feeds rest (feed data self).2).1,
      (feeds rest (feed data self).2).2) := rfl

theorem feeds_append (a b : List (List β)) (self : ChunkDecoder β) :
    feeds (a ++ b) self = ((feeds a self).1 ++ (feeds b (feeds a self).2).1,
      (feeds b (feeds a self).2).2) := by
  induction a generalizing self with
  | nil => rfl
  | cons data a ih => rw [List.cons_append, feeds_cons, ih, feeds_cons, List.cons_append]

theorem feeds_length (a : List (List β)) (self : ChunkDecoder β) :
    (feeds a self).1.length = a.length := by
  induction a generalizing self with
  | nil => rfl
  | cons data a ih => rw [feeds_cons, List.length_cons, ih, List.length_cons]

/-- two chunks of one message, cut in the middle of a header and of a payload -/
example : (feeds [[0, 2, 7, 8, 0], [1, 9, 0, 0, 0]] (new : ChunkDecoder UInt8))
    = ([.ok [], .ok [⟨[[7, 8], [9]], 3⟩]],
       { (new : ChunkDecoder UInt8) with state := .readingHeaderByte2 0 }) := by decide

end ChunkDecoder
end Bolt
