import FluxKV.Machine.Run
import FluxKV.Protocol.Header
import Mathlib.Algebra.BigOperators.Group.List.Basic

/-! # Request framing and the byte ranges of the handlers

A connection appends what the socket delivers to a chain of buffers and takes one request at a time
off its front. `parseAndDispatch` waits for the header and for `bodyLen` bytes, then hands the request
to a handler, which slices the body by the header's three length fields. Runs of cached GETs at the
front are answered in place by `serveCachedGets`, the only code that compares the lengths.
-/

namespace FluxKV.Connection

open Protocol Machine

/-- `DocCache::GetResult`, with the length of the value of a hit. -/
inductive GetResult where
  | miss
  | hit (valueLen : ℕ)
  | tombstone
  | tooLarge
deriving DecidableEq, Repr

/-- What one call of `parseAndDispatch` reads of the rest of the server. -/
structure Server where
  echo : Bool
  takeWriteToken : Bool
  cache : Option (UInt16 → Bytes → GetResult)
  pendingWrite : ℕ
  flushBytes : ℕ

/-- A request handed to its handler. An empty body is a null pointer there. -/
structure Call where
  hdr : McbpHeader
  op : Opcode
  body : Option Bytes
deriving DecidableEq, Repr

/-- The parsing side of a connection, with the requests it has handed out so far. -/
structure Conn where
  readBuf : List Bytes
  closing : Bool
  stageFull : Bool
  handed : List Call
deriving DecidableEq, Repr

def Conn.new : Conn := ⟨[], false, false, []⟩

def chainLength (chain : List Bytes) : ℕ := (chain.map List.length).sum

/-- `IOBufQueue::trimStart`. -/
def trimStart : List Bytes → ℕ → List Bytes
  | [], _ => []
  | front :: rest, n => if n < front.length then front.drop n :: rest else trimStart rest (n - front.length)

theorem trimStart_flatten (chain : List Bytes) (n : ℕ) : (trimStart chain n).flatten = chain.flatten.drop n := by
  induction chain generalizing n with
  | nil => simp [trimStart]
  | cons front rest ih =>
    simp only [trimStart, List.flatten_cons, List.drop_append]
    split
    · next short => rw [List.flatten_cons, Nat.sub_eq_zero_of_le (Nat.le_of_lt short), List.drop_zero]
    · next long => rw [ih, List.drop_of_length_le (Nat.not_lt.mp long), List.nil_append]

theorem chainLength_eq (chain : List Bytes) : chainLength chain = chain.flatten.length := by
  simp [chainLength]

/-- The loop of `serveCachedGets` from one offset of the front buffer on: the bytes it consumes. -/
def serveLoop (cache : UInt16 → Bytes → GetResult) (flushBytes : ℕ) : ℕ → Bytes → ℕ → ℕ
  | 0, _, _ => 0
  | fuel + 1, front, pendingWrite =>
    if front.length < kHeaderSize then 0
    else
      let hdr := McbpHeader.pull front
      let len := kHeaderSize + hdr.bodyLen.toNat
      let next (written : ℕ) :=
        if flushBytes ≤ written then len else len + serveLoop cache flushBytes fuel (front.drop len) written
      if hdr.magic ≠ kRequestMagic ∨ hdr.opcode ≠ Opcode.get.code then 0
      else if front.length < len ∨ hdr.bodyLen.toNat < hdr.extrasLen.toNat + hdr.keyLen.toNat then 0
      else
        match cache hdr.specific (window front (kHeaderSize + hdr.extrasLen.toNat) hdr.keyLen.toNat) with
        | .hit valueLen => next (pendingWrite + (kHeaderSize + 4 + valueLen))
        | .tombstone => next (pendingWrite + kHeaderSize)
        | .miss => 0
        | .tooLarge => 0

/-- Every round consumes a header, so the front buffer's length bounds the rounds. -/
def serveCachedGets (server : Server) (cache : UInt16 → Bytes → GetResult) : List Bytes → ℕ
  | [] => 0
  | front :: _ => serveLoop cache server.flushBytes front.length front server.pendingWrite

def parseAndDispatch (server : Server) (conn : Conn) : Conn :=
  if chainLength conn.readBuf < kHeaderSize then conn
  else
    let hdr := McbpHeader.pull conn.readBuf.flatten
    let closed := { conn with readBuf := [], closing := true }
    if hdr.magic ≠ kRequestMagic then closed
    else
      match Opcode.ofCode? hdr.opcode with
      | none => closed
      | some op =>
        let totalLen := kHeaderSize + hdr.bodyLen.toNat
        let served := (server.cache.map (serveCachedGets server · conn.readBuf)).getD 0
        if chainLength conn.readBuf < totalLen then conn
        else if op = .set ∧ server.takeWriteToken = false then { conn with stageFull := true }
        else if op = .get ∧ server.echo = true then
          { conn with readBuf := trimStart conn.readBuf totalLen, handed := conn.handed ++ [⟨hdr, op, none⟩] }
        else if op = .get ∧ 0 < served then { conn with readBuf := trimStart conn.readBuf served }
        else
          let rest := trimStart conn.readBuf kHeaderSize
          let body := if 0 < hdr.bodyLen.toNat then some (rest.flatten.take hdr.bodyLen.toNat) else none
          { conn with
            readBuf := trimStart rest hdr.bodyLen.toNat
            handed := conn.handed ++ [⟨hdr, op, body⟩] }

/-- What happens to a connection: bytes arrive, the read loop takes one request, a pause ends. -/
inductive Event where
  | read (chunk : Bytes)
  | parse (server : Server)
  | resume

def step (conn : Conn) : Event → Option Conn
  | .read chunk => some { conn with readBuf := conn.readBuf ++ [chunk] }
  | .parse server => if conn.closing ∨ conn.stageFull then none else some (parseAndDispatch server conn)
  | .resume => some { conn with stageFull := false }

/-- A slice of the body: where it starts and how long it is. -/
structure Range where
  off : ℕ
  len : ℕ
deriving DecidableEq, Repr

/-- The slice ends within a body of this size. -/
def Range.Inside (range : Range) (size : ℕ) : Prop := range.off + range.len ≤ size

instance (range : Range) (size : ℕ) : Decidable (range.Inside size) := Nat.decLe ..

section Handlers

variable (hdr : McbpHeader)

/-- The value length as `handleSet` computes it, in 32-bit arithmetic. -/
def setValueLen : UInt32 := hdr.bodyLen - hdr.extrasLen.toUInt32 - hdr.keyLen.toUInt32

def keyRange : Range := ⟨hdr.extrasLen.toNat, hdr.keyLen.toNat⟩

def handleSetRanges : List Range :=
  (if 4 ≤ hdr.extrasLen.toNat then [⟨0, 4⟩] else []) ++
    (if 8 ≤ hdr.extrasLen.toNat then [⟨4, 4⟩] else []) ++
    [keyRange hdr, ⟨hdr.extrasLen.toNat + hdr.keyLen.toNat, (setValueLen hdr).toNat⟩]

def handleDeleteRanges : List Range := [keyRange hdr]

/-- The key is sliced for the cache lookup and once more for the queued read, at the same place. -/
def handleGetRanges : List Range := [keyRange hdr]

/-- The features are read two bytes at a time, up to the last whole pair. -/
def handleHelloRanges : List Range :=
  if hdr.keyLen.toNat < hdr.bodyLen.toNat then
    (List.range ((hdr.bodyLen.toNat - hdr.keyLen.toNat) / 2)).map fun i => ⟨hdr.keyLen.toNat + 2 * i, 2⟩
  else []

/-- The mechanism and the client's message, for both SASL handlers. -/
def handleSaslRanges : List Range :=
  (if 0 < hdr.keyLen.toNat then [⟨0, hdr.keyLen.toNat⟩] else []) ++
    if hdr.keyLen.toNat < hdr.bodyLen.toNat then
      [⟨hdr.keyLen.toNat, hdr.bodyLen.toNat - hdr.keyLen.toNat⟩]
    else []

end Handlers

/-- The slices a request's handler forms or reads. -/
def Call.ranges (call : Call) : List Range :=
  match call.body with
  | none => []
  | some _ =>
    match call.op with
    | .set => handleSetRanges call.hdr
    | .delete => handleDeleteRanges call.hdr
    | .get => handleGetRanges call.hdr
    | .hello => handleHelloRanges call.hdr
    | .saslAuth | .saslStep => handleSaslRanges call.hdr
    | _ => []

/-- The length fields of the header leave the body room for the parts its handler slices. -/
def Call.Fits (call : Call) : Prop :=
  match call.op with
  | .set | .delete | .get => call.hdr.extrasLen.toNat + call.hdr.keyLen.toNat ≤ call.hdr.bodyLen.toNat
  | .saslAuth | .saslStep => call.hdr.keyLen.toNat ≤ call.hdr.bodyLen.toNat
  | _ => True

theorem handed_parseAndDispatch (server : Server) (conn : Conn) :
    (parseAndDispatch server conn).handed = conn.handed ∨
      ∃ call : Call, (parseAndDispatch server conn).handed = conn.handed ++ [call] ∧
        ∀ body, call.body = some body → body.length = call.hdr.bodyLen.toNat := by
  unfold parseAndDispatch
  split
  · exact .inl rfl
  dsimp only
  split
  · exact .inl rfl
  split
  · exact .inl rfl
  split
  · exact .inl rfl
  next enough =>
  split
  · exact .inl rfl
  split
  · exact .inr ⟨_, rfl, fun _ absent => nomatch absent⟩
  split
  · exact .inl rfl
  refine .inr ⟨_, rfl, fun body present => ?_⟩
  simp only [Option.ite_none_right_eq_some, Option.some.injEq] at present
  obtain ⟨-, rfl⟩ := present
  rw [chainLength_eq] at enough
  rw [trimStart_flatten, List.length_take, List.length_drop]
  exact Nat.min_eq_left (by omega)

/-- A request is handed out with all the bytes its header announces, or with no body. -/
theorem body_length_of_reach {conn : Conn} (reached : Reach step Conn.new conn) :
    ∀ call ∈ conn.handed, ∀ body, call.body = some body → body.length = call.hdr.bodyLen.toNat := by
  refine reached.invariant (P := fun conn => ∀ call ∈ conn.handed, ∀ body, call.body = some body →
    body.length = call.hdr.bodyLen.toNat) (fun call member => (List.not_mem_nil member).elim) ?_
  intro conn event next whole taken
  cases event with
  | read | resume => cases taken; exact whole
  | parse server =>
    simp only [step, Option.ite_none_left_eq_some, Option.some.injEq] at taken
    obtain ⟨-, rfl⟩ := taken
    rcases handed_parseAndDispatch server conn with same | ⟨call, more, body⟩
    · rwa [same]
    · rw [more]
      intro other member
      rcases List.mem_append.mp member with member | member
      · exact whole other member
      · obtain rfl := List.mem_singleton.mp member
        exact body

theorem setValueLen_of_fits {hdr : McbpHeader}
    (fits : hdr.extrasLen.toNat + hdr.keyLen.toNat ≤ hdr.bodyLen.toNat) :
    hdr.extrasLen.toNat + hdr.keyLen.toNat + (setValueLen hdr).toNat = hdr.bodyLen.toNat := by
  have extras : hdr.extrasLen.toUInt32 ≤ hdr.bodyLen := by
    rw [UInt32.le_iff_toNat_le, UInt8.toNat_toUInt32]
    omega
  have rest : (hdr.bodyLen - hdr.extrasLen.toUInt32).toNat = hdr.bodyLen.toNat - hdr.extrasLen.toNat := by
    rw [UInt32.toNat_sub_of_le _ _ extras, UInt8.toNat_toUInt32]
  have key : hdr.keyLen.toUInt32 ≤ hdr.bodyLen - hdr.extrasLen.toUInt32 := by
    rw [UInt32.le_iff_toNat_le, rest, UInt16.toNat_toUInt32]
    omega
  rw [setValueLen, UInt32.toNat_sub_of_le _ _ key, rest, UInt16.toNat_toUInt32]
  omega

theorem keyRange_inside_iff (hdr : McbpHeader) : (keyRange hdr).Inside hdr.bodyLen.toNat ↔
    hdr.extrasLen.toNat + hdr.keyLen.toNat ≤ hdr.bodyLen.toNat := Iff.rfl

theorem handleSetRanges_inside_iff (hdr : McbpHeader) :
    (∀ range ∈ handleSetRanges hdr, range.Inside hdr.bodyLen.toNat) ↔
      hdr.extrasLen.toNat + hdr.keyLen.toNat ≤ hdr.bodyLen.toNat := by
  constructor
  · intro inside
    exact (keyRange_inside_iff hdr).mp (inside _ (by simp [handleSetRanges]))
  · intro fits range member
    have total := setValueLen_of_fits fits
    simp only [handleSetRanges, List.mem_append, List.mem_ite_nil_right, List.mem_cons, List.not_mem_nil,
      or_false] at member
    rcases member with (⟨long, rfl⟩ | ⟨long, rfl⟩) | rfl | rfl
    all_goals simp only [Range.Inside, keyRange]; omega

theorem handleHelloRanges_inside (hdr : McbpHeader) :
    ∀ range ∈ handleHelloRanges hdr, range.Inside hdr.bodyLen.toNat := by
  intro range member
  simp only [handleHelloRanges, List.mem_ite_nil_right, List.mem_map, List.mem_range] at member
  obtain ⟨_, i, bound, rfl⟩ := member
  simp only [Range.Inside]
  omega

theorem handleSaslRanges_inside_iff (hdr : McbpHeader) :
    (∀ range ∈ handleSaslRanges hdr, range.Inside hdr.bodyLen.toNat) ↔
      hdr.keyLen.toNat ≤ hdr.bodyLen.toNat := by
  constructor
  · intro inside
    rcases Nat.eq_zero_or_pos hdr.keyLen.toNat with zero | positive
    · omega
    · have mechanism : 0 + hdr.keyLen.toNat ≤ hdr.bodyLen.toNat :=
        inside ⟨0, hdr.keyLen.toNat⟩ (by simp [handleSaslRanges, positive])
      omega
  · intro fits range member
    simp only [handleSaslRanges, List.mem_append, List.mem_ite_nil_right, List.mem_singleton] at member
    rcases member with ⟨_, rfl⟩ | ⟨_, rfl⟩
    all_goals simp only [Range.Inside]; omega

theorem ranges_inside_iff (call : Call) :
    (∀ range ∈ call.ranges, range.Inside call.hdr.bodyLen.toNat) ↔ call.body = none ∨ call.Fits := by
  obtain ⟨hdr, op, body⟩ := call
  cases body with
  | none => simp [Call.ranges]
  | some body =>
    simp only [Call.ranges, Call.Fits, reduceCtorEq, false_or]
    cases op with
    | set => exact handleSetRanges_inside_iff hdr
    | delete | get => exact List.forall_mem_singleton.trans (keyRange_inside_iff hdr)
    | hello => exact iff_true_intro (handleHelloRanges_inside hdr)
    | saslAuth | saslStep => exact handleSaslRanges_inside_iff hdr
    | _ => simp

/-- On every stream of chunks, a request is handed to its handler with all of its body present; the
handler stays inside that body exactly if the length fields fit, and then a SET's value is what the
body holds after extras and key. -/
theorem handed_inside_iff {conn : Conn} (reached : Reach step Conn.new conn) :
    ∀ call ∈ conn.handed,
      (∀ body, call.body = some body → body.length = call.hdr.bodyLen.toNat) ∧
      ((∀ range ∈ call.ranges, range.Inside call.hdr.bodyLen.toNat) ↔ call.body = none ∨ call.Fits) ∧
      (call.op = .set → call.Fits →
        call.hdr.extrasLen.toNat + call.hdr.keyLen.toNat + (setValueLen call.hdr).toNat =
          call.hdr.bodyLen.toNat) := by
  intro call member
  refine ⟨body_length_of_reach reached call member, ranges_inside_iff call, fun op fits => ?_⟩
  simp only [Call.Fits, op] at fits
  exact setValueLen_of_fits fits

/-- A server with no cache and no echo that grants every write token. -/
def plainServer : Server := ⟨false, true, none, 0, 4096⟩

/-- The header of a SET in vbucket 0 whose other fields are zero. -/
def setHeader (keyLen extrasLen bodyLen : UInt8) : Bytes :=
  [0x80, 0x01, 0, keyLen, extrasLen, 0, 0, 0, 0, 0, 0, bodyLen] ++ List.replicate 12 0

/-- A SET of an eight-byte extras and a one-byte key fits: the theorem applies to it. -/
theorem handed_inside_wellFormed : ∃ conn call, Reach step Conn.new conn ∧ call ∈ conn.handed ∧
    call.op = .set ∧ call.Fits ∧ ∀ range ∈ call.ranges, range.Inside call.hdr.bodyLen.toNat := by
  obtain ⟨conn, reached, handed⟩ : ∃ conn, Reach step Conn.new conn ∧
      conn.handed = [⟨⟨0x80, 0x01, 1, 8, 0, 0, 11, 0, 0⟩, .set, some (List.replicate 11 7)⟩] :=
    exists_reach [.read (setHeader 1 8 11 ++ List.replicate 11 7), .parse plainServer] (by decide +kernel)
  have member : _ ∈ conn.handed := handed ▸ List.mem_singleton_self _
  have fits : Call.Fits ⟨⟨0x80, 0x01, 1, 8, 0, 0, 11, 0, 0⟩, .set, some (List.replicate 11 7)⟩ := by
    simp only [Call.Fits]
    decide
  exact ⟨conn, _, reached, member, rfl, fits, (handed_inside_iff reached _ member).2.1.mpr (.inr fits)⟩

/-- A SET that announces a five-byte key in a one-byte body reaches its handler, which slices a key
past the body and a value of almost 4 GiB. -/
theorem set_value_wraps : ∃ conn call, Reach step Conn.new conn ∧ call ∈ conn.handed ∧ call.op = .set ∧
    call.body = some [7] ∧ keyRange call.hdr ∈ call.ranges ∧ ¬ (keyRange call.hdr).Inside 1 ∧
    (⟨5, 4294967292⟩ : Range) ∈ call.ranges ∧ setValueLen call.hdr = 4294967292 := by
  obtain ⟨conn, reached, handed⟩ : ∃ conn, Reach step Conn.new conn ∧
      conn.handed = [⟨⟨0x80, 0x01, 5, 0, 0, 0, 1, 0, 0⟩, .set, some [7]⟩] :=
    exists_reach [.read (setHeader 5 0 1 ++ [7]), .parse plainServer] (by decide +kernel)
  have member : _ ∈ conn.handed := handed ▸ List.mem_singleton_self _
  exact ⟨conn, _, reached, member, rfl, rfl, by decide, by decide, by decide, by decide⟩

end FluxKV.Connection
