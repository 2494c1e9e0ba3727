import FluxKV.Connection.Serve

/-! # Requests of the benchmark client

The client builds its requests without the server's encoder: key, vbucket and value size follow from the options and
the key's index, and the header is put together byte by byte. A SET's value is cut from a buffer that is as long as
the longest value. The server reads back what was asked for, except where a length of zero, which stands for the whole
buffer, was meant, and where the body is longer than its 32-bit length field can say. Nothing is sent where the client
divides by zero: by a number of vbuckets that is zero, or by a number of value sizes that has wrapped to zero.
-/

namespace FluxKV.Connection

open Protocol BigEndian

/-- The fields `handleSet` gives its request. -/
structure SetFields where
  vbucket : UInt16
  opaqueWord : UInt32
  datatype : UInt8
  flags : UInt32
  expiry : UInt32
  key : Bytes
  value : Bytes
deriving DecidableEq, Repr

def handleSet (call : Call) : SetFields :=
  let hdr := call.hdr
  match call.body with
  | none => ⟨hdr.specific, hdr.opaqueWord, hdr.datatype, 0, 0, [], []⟩
  | some p =>
    { vbucket := hdr.specific
      opaqueWord := hdr.opaqueWord
      datatype := hdr.datatype
      flags := if 4 ≤ hdr.extrasLen.toNat then .ofNat (beNat (window p 0 4)) else 0
      expiry := if 8 ≤ hdr.extrasLen.toNat then .ofNat (beNat (window p 4 4)) else 0
      key := window p hdr.extrasLen.toNat hdr.keyLen.toNat
      value := window p (hdr.extrasLen.toNat + hdr.keyLen.toNat) (setValueLen hdr).toNat }

/-- The document `handleGet` looks for. -/
def handleGetKey (call : Call) : Engine.DocKey :=
  match call.body with
  | none => (call.hdr.specific, [])
  | some p => (call.hdr.specific, window p call.hdr.extrasLen.toNat call.hdr.keyLen.toNat)

theorem isFrame_push_iff {hdr : McbpHeader} {body : Bytes} : requestFramer.IsFrame (hdr.push ++ body) ↔
    hdr.magic = kRequestMagic ∧ Opcode.ofCode? hdr.opcode ≠ none ∧ body.length = hdr.bodyLen.toNat := by
  change requestCut (hdr.push ++ body) = .whole (hdr.push ++ body).length ↔ _
  rw [requestCut_eq_whole_iff, McbpHeader.pull_push, List.length_append, McbpHeader.push_length]
  constructor
  · rintro ⟨_, magic, known, size, _⟩
    exact ⟨magic, known, by omega⟩
  · rintro ⟨magic, known, size⟩
    exact ⟨by omega, magic, known, by omega, le_rfl⟩

/-- A whole request in the read buffer goes to its handler. -/
theorem handed_push {hdr : McbpHeader} {op : Opcode} {body : Bytes} (magic : hdr.magic = kRequestMagic)
    (known : Opcode.ofCode? hdr.opcode = some op) (whole : body.length = hdr.bodyLen.toNat) (some : body ≠ []) :
    (parseAndDispatch plainServer { Conn.new with readBuf := [hdr.push ++ body] }).handed =
      [⟨hdr, op, Option.some body⟩] := by
  have positive := List.length_pos_iff.mpr some
  have length : chainLength [hdr.push ++ body] = kHeaderSize + hdr.bodyLen.toNat := by
    rw [chainLength_eq, List.flatten_singleton, List.length_append, McbpHeader.push_length, whole]
  have split : (trimStart [hdr.push ++ body] kHeaderSize).flatten = body := by
    rw [trimStart_flatten, List.flatten_singleton, List.drop_left' hdr.push_length]
  rw [parseAndDispatch, if_neg (by rw [length]; omega)]
  simp only [List.flatten_singleton, McbpHeader.pull_push, magic, ne_eq, not_true_eq_false, if_false, known, length,
    lt_irrefl, plainServer, Bool.true_eq_false, and_false, Bool.false_eq_true, Option.map_none, Option.getD_none,
    positive, if_true, split, ← whole, List.take_length, Conn.new, List.nil_append]

end FluxKV.Connection

namespace FluxKV.Client

open Protocol BigEndian

def kAltRequestMagic : UInt8 := 0x08

/-- `-valdist`. A bimodal size is large where the upper 53 bits of the hash, as a fraction, are below `FRAC`. -/
inductive ValDist where
  | off
  | uniform (least most : UInt64)
  | bimodal (small large : UInt64) (isLarge : UInt64 → Bool)

/-- The options that shape a request. -/
structure Options where
  vbuckets : UInt16 := 256
  valsize : UInt64 := 1024
  valdist : ValDist := .off
  keylen : ℕ := 0
  startkey : UInt64 := 0
  scramble : Bool := false

namespace Options

variable (opts : Options)

def valMin : UInt64 :=
  match opts.valdist with
  | .off => 0
  | .uniform least _ => least
  | .bimodal small _ _ => small

def valMax : UInt64 :=
  match opts.valdist with
  | .off => 0
  | .uniform _ most => most
  | .bimodal _ large _ => large

/-- What `main` checks of them. -/
def Accepted : Prop := opts.valMin ≤ opts.valMax

instance : Decidable opts.Accepted := inferInstanceAs (Decidable (_ ≤ _))

end Options

/-! ## Keys and vbuckets -/

def crcRound (c : UInt32) : UInt32 := if c &&& 1 = 1 then (0xEDB88320 : UInt32) ^^^ (c >>> 1) else c >>> 1

def crcTable (i : UInt32) : UInt32 := Nat.iterate crcRound 8 i

def crc32 (data : Bytes) : UInt32 :=
  data.foldl (fun c b => crcTable ((c ^^^ b.toUInt32) &&& 0xFF) ^^^ (c >>> 8)) (0xFFFFFFFF : UInt32) ^^^ 0xFFFFFFFF

/-- There is none where the division by zero stops the client. -/
def vbucketFor (key : Bytes) (vbuckets : UInt16) : Option UInt16 :=
  if vbuckets = 0 then none else some (.ofNat (((crc32 key >>> 16) &&& 0x7FFF).toNat % vbuckets.toNat))

def scrambleIndex (x : UInt64) : UInt64 :=
  let kMask := ((1 : UInt64) <<< 39) - 1
  let x := (x * 0x9E3779B97F4A7C15) &&& kMask
  let x := x ^^^ (x >>> 19)
  let x := (x * 0xBF58476D1CE4E5B9) &&& kMask
  x ^^^ (x >>> 17)

def digit (n : ℕ) : UInt8 := .ofNat (48 + n % 10)

/-- The last digits of a number, as many as the width. -/
def padded : ℕ → ℕ → Bytes
  | 0, _ => []
  | width + 1, n => padded width (n / 10) ++ [digit n]

/-- `std::to_string`. -/
def decimal (n : ℕ) : Bytes := padded (Nat.toDigits 10 n).length n

def keyFor (opts : Options) (index : UInt64) : Bytes :=
  let index := index + opts.startkey
  let index := if opts.scramble then scrambleIndex index else index
  if opts.keylen = 0 then [0x6b, 0x65, 0x79, 0x5f] ++ decimal index.toNat else padded opts.keylen index.toNat

/-! ## Values -/

def splitmix (keyIndex : UInt64) : UInt64 :=
  let x := keyIndex + 0x9E3779B97F4A7C15
  let x := (x ^^^ (x >>> 30)) * 0xBF58476D1CE4E5B9
  let x := (x ^^^ (x >>> 27)) * 0x94D049BB133111EB
  x ^^^ (x >>> 31)

/-- There is none where the number of sizes wraps to zero and the division stops the client. -/
def valueLenFor (opts : Options) (keyIndex : UInt64) : Option UInt64 :=
  match opts.valdist with
  | .off => some opts.valsize
  | .uniform least most =>
    if most - least + 1 = 0 then none else some (least + splitmix keyIndex % (most - least + 1))
  | .bimodal small large isLarge => some (if isLarge (splitmix keyIndex >>> 11) then large else small)

/-! ## Requests -/

/-- A null value is none. The framing extra of a durable SET takes the place of half of the key length. Of the length
of the body only the low 32 bits are sent. -/
def appendRequest (durability : UInt8) (out : Bytes) (opcode : UInt8) (key : Bytes) (vbucket : UInt16)
    (opaqueId : UInt32) (value : Option Bytes) (valueLen : UInt64) : Bytes :=
  let extras : Bytes := if opcode = Opcode.set.code then List.replicate 8 0 else []
  let durable := opcode = Opcode.set.code ∧ durability ≠ 0
  let frame : Bytes := if durable then [0x11, durability] else []
  let valueLen :=
    match value with
    | some value => if valueLen = 0 then value.length else valueLen.toNat
    | none => 0
  let bodyLen := frame.length + extras.length + key.length + valueLen
  let keyLen := if durable then [.ofNat frame.length, .ofNat key.length] else beBytes 2 key.length
  out ++ ([if durable then kAltRequestMagic else kRequestMagic, opcode] ++ keyLen ++ [.ofNat extras.length, 0] ++
    beBytes 2 vbucket.toNat ++ beBytes 4 bodyLen ++ beBytes 4 opaqueId.toNat ++ List.replicate 8 0) ++
    frame ++ extras ++ key ++ (value.getD []).take valueLen

inductive Op where
  | get
  | set
deriving DecidableEq, Repr

def Op.opcode : Op → Opcode
  | get => .get
  | set => .set

/-- A request a connection makes. -/
structure Ask where
  op : Op
  keyIndex : UInt64
  opaqueId : UInt32
deriving DecidableEq, Repr

namespace Options

variable (opts : Options) (value : Bytes)

/-- The value that goes with a request. -/
def valueOf (op : Op) : Option Bytes :=
  match op with
  | .get => none
  | .set => some value

/-- `appendRequest` as `runConnection` and `runConnectionWindow` call it. So does `buildBuffer`, but with an empty
buffer of values it asks for GETs only. -/
def append (out : Bytes) (ask : Ask) : Option Bytes := do
  let key := keyFor opts ask.keyIndex
  let vbucket ← vbucketFor key opts.vbuckets
  let valueLen ← valueLenFor opts ask.keyIndex
  return appendRequest 0 out ask.op.opcode.code key vbucket ask.opaqueId (valueOf value ask.op) valueLen

/-- The bytes of a batch. -/
def sendBuf (asks : List Ask) : Option Bytes := asks.foldlM (opts.append value) []

/-- The length `valueLenFor` gives, where it gives one. -/
def askedLen (ask : Ask) : ℕ := ((valueLenFor opts ask.keyIndex).getD 0).toNat

/-- The length of the value that is sent. -/
def sentLen (ask : Ask) : ℕ :=
  match ask.op with
  | .get => 0
  | .set => if opts.askedLen ask = 0 then value.length else opts.askedLen ask

def extras (op : Op) : Bytes :=
  match op with
  | .get => []
  | .set => List.replicate 8 0

def body (ask : Ask) : Bytes :=
  extras ask.op ++ keyFor opts ask.keyIndex ++ ((valueOf value ask.op).getD []).take (opts.sentLen value ask)

/-- The header the server finds. The opaque's bytes are the client's. -/
def header (vbucket : UInt16) (ask : Ask) : McbpHeader where
  magic := kRequestMagic
  opcode := ask.op.opcode.code
  keyLen := .ofNat (keyFor opts ask.keyIndex).length
  extrasLen := .ofNat (extras ask.op).length
  datatype := 0
  specific := vbucket
  bodyLen := .ofNat ((extras ask.op).length + (keyFor opts ask.keyIndex).length + opts.sentLen value ask)
  opaqueWord := .ofNat (beNat (beBytes 4 ask.opaqueId.toNat).reverse)
  cas := 0

private theorem beBytes_ofNat16 (n : ℕ) : beBytes 2 (UInt16.ofNat n).toNat = beBytes 2 n := by
  rw [UInt16.toNat_ofNat', show 2 ^ 16 = 256 ^ 2 by decide, beBytes_mod]

private theorem beBytes_ofNat32 (n : ℕ) : beBytes 4 (UInt32.ofNat n).toNat = beBytes 4 n := by
  rw [UInt32.toNat_ofNat', show 2 ^ 32 = 256 ^ 4 by decide, beBytes_mod]

/-- The server sends the opaque's bytes back as they came. -/
theorem id_bytes (opaqueId : UInt32) :
    (beBytes 4 (UInt32.ofNat (beNat (beBytes 4 opaqueId.toNat).reverse)).toNat).reverse =
      beBytes 4 opaqueId.toNat := by
  have size : (beBytes 4 opaqueId.toNat).reverse.length = 4 := by rw [List.length_reverse, beBytes_length]
  rw [beBytes_ofNat32, List.reverse_eq_iff]
  conv_lhs => rw [← size]
  exact beBytes_beNat _

theorem push_header (vbucket : UInt16) (ask : Ask) : (opts.header value vbucket ask).push =
    [kRequestMagic, ask.op.opcode.code] ++ beBytes 2 (keyFor opts ask.keyIndex).length ++
      [.ofNat (extras ask.op).length, 0] ++ beBytes 2 vbucket.toNat ++
      beBytes 4 ((extras ask.op).length + (keyFor opts ask.keyIndex).length + opts.sentLen value ask) ++
      beBytes 4 ask.opaqueId.toNat ++ List.replicate 8 0 := by
  simp only [McbpHeader.push, header]
  rw [id_bytes, beBytes_ofNat16, beBytes_ofNat32]
  rfl

theorem appendRequest_eq (out : Bytes) (ask : Ask) (vbucket : UInt16) {valueLen : UInt64}
    (found : valueLenFor opts ask.keyIndex = some valueLen) :
    appendRequest 0 out ask.op.opcode.code (keyFor opts ask.keyIndex) vbucket ask.opaqueId (valueOf value ask.op)
      valueLen = out ++ ((opts.header value vbucket ask).push ++ opts.body value ask) := by
  have asked : opts.askedLen ask = valueLen.toNat := by rw [askedLen, found, Option.getD_some]
  rw [push_header]
  obtain ⟨op, keyIndex, opaqueId⟩ := ask
  cases op with
  | get => simp [appendRequest, body, extras, sentLen, valueOf, Op.opcode, Opcode.code]
  | set =>
    simp [appendRequest, body, extras, sentLen, valueOf, Op.opcode, Opcode.code, asked, ← UInt64.toNat_inj]

theorem append_eq_some_iff {out bytes : Bytes} {ask : Ask} : opts.append value out ask = some bytes ↔
    ∃ vbucket, vbucketFor (keyFor opts ask.keyIndex) opts.vbuckets = some vbucket ∧
      (∃ valueLen, valueLenFor opts ask.keyIndex = some valueLen) ∧
      out ++ ((opts.header value vbucket ask).push ++ opts.body value ask) = bytes := by
  simp only [append, Option.bind_eq_bind, Option.bind_eq_some_iff, Option.pure_def, Option.some.injEq]
  constructor
  · rintro ⟨vbucket, found, valueLen, given, rfl⟩
    exact ⟨vbucket, found, ⟨valueLen, given⟩, (opts.appendRequest_eq value out ask vbucket given).symm⟩
  · rintro ⟨vbucket, found, ⟨valueLen, given⟩, rfl⟩
    exact ⟨vbucket, found, valueLen, given, opts.appendRequest_eq value out ask vbucket given⟩

end Options

/-! ## What arrives -/

theorem length_padded (width n : ℕ) : (padded width n).length = width := by
  induction width generalizing n with
  | zero => rfl
  | succ width ih => rw [padded, List.length_append, ih, List.length_singleton]

theorem keyFor_ne_nil (opts : Options) (index : UInt64) : keyFor opts index ≠ [] := by
  show (if opts.keylen = 0 then _ else padded opts.keylen _) ≠ []
  split
  · exact List.append_ne_nil_of_left_ne_nil (by decide) _
  · next fixed =>
    rw [← List.length_pos_iff, length_padded]
    exact Nat.pos_of_ne_zero fixed

namespace Options

variable {opts : Options} {value : Bytes} {ask : Ask} {vbucket : UInt16}

theorem sizes_eq_zero_iff {least most : UInt64} (ordered : least ≤ most) :
    most - least + 1 = 0 ↔ least = 0 ∧ most = 0xFFFFFFFFFFFFFFFF := by
  have below := UInt64.le_iff_toNat_le.mp ordered
  have bound := most.toNat_lt
  simp only [← UInt64.toNat_inj, UInt64.toNat_add, UInt64.toNat_sub_of_le _ _ ordered, UInt64.reduceToNat]
  omega

theorem valueLenFor_eq_some_iff (accepted : opts.Accepted) (keyIndex : UInt64) :
    (∃ valueLen, valueLenFor opts keyIndex = some valueLen) ↔ opts.valdist ≠ .uniform 0 0xFFFFFFFFFFFFFFFF := by
  obtain ⟨_, valsize, valdist, _⟩ := opts
  cases valdist with
  | off | bimodal => exact ⟨fun _ => nofun, fun _ => ⟨_, rfl⟩⟩
  | uniform least most =>
    have ordered : least ≤ most := accepted
    simp only [valueLenFor, sizes_eq_zero_iff ordered, ne_eq, ValDist.uniform.injEq]
    split
    · next all => simp [all]
    · next some => simp [some]

/-- The buffer is long enough for every value. -/
theorem valueLenFor_le (accepted : opts.Accepted) {keyIndex valueLen : UInt64}
    (given : valueLenFor opts keyIndex = some valueLen) :
    valueLen.toNat ≤ max opts.valsize.toNat opts.valMax.toNat := by
  obtain ⟨_, valsize, valdist, _⟩ := opts
  cases valdist with
  | off =>
    obtain rfl := Option.some.inj given
    exact Nat.le_max_left ..
  | uniform least most =>
    have ordered : least.toNat ≤ most.toNat := accepted
    obtain ⟨nonzero, rfl⟩ : ¬ most - least + 1 = 0 ∧ least + splitmix keyIndex % (most - least + 1) = valueLen := by
      simpa [valueLenFor] using given
    have width : (most - least + 1).toNat = (most.toNat - least.toNat + 1) % 2 ^ 64 := by
      rw [UInt64.toNat_add, UInt64.toNat_sub_of_le most least accepted]
      rfl
    have inside : (splitmix keyIndex % (most - least + 1)).toNat < (most - least + 1).toNat := by
      rw [UInt64.toNat_mod]
      exact Nat.mod_lt _ (Nat.pos_of_ne_zero fun zero => nonzero (UInt64.toNat_inj.mp zero))
    have bound := most.toNat_lt
    show _ ≤ max valsize.toNat most.toNat
    rw [UInt64.toNat_add]
    omega
  | bimodal small large isLarge =>
    have ordered : small.toNat ≤ large.toNat := accepted
    obtain rfl := Option.some.inj given
    show UInt64.toNat (if _ then large else small) ≤ max valsize.toNat large.toNat
    split <;> omega

theorem askedLen_le (accepted : opts.Accepted) (ask : Ask) :
    opts.askedLen ask ≤ max opts.valsize.toNat opts.valMax.toNat := by
  unfold askedLen
  cases given : valueLenFor opts ask.keyIndex with
  | none => exact Nat.zero_le _
  | some valueLen => exact valueLenFor_le accepted given

/-- A body that its header announces in full is read back part by part. -/
theorem window_body (opts : Options) (value : Bytes) (ask : Ask) :
    window (opts.body value ask) (extras ask.op).length (keyFor opts ask.keyIndex).length = keyFor opts ask.keyIndex ∧
      window (opts.body value ask) ((extras ask.op).length + (keyFor opts ask.keyIndex).length)
        (((valueOf value ask.op).getD []).take (opts.sentLen value ask)).length =
        ((valueOf value ask.op).getD []).take (opts.sentLen value ask) := by
  refine ⟨?_, ?_⟩
  · rw [window, body, List.append_assoc, List.drop_left, List.take_left]
  · rw [window, body, ← List.length_append, List.drop_left, List.take_length]

theorem keyLen_header (short : (keyFor opts ask.keyIndex).length ≤ 65535) :
    (opts.header value vbucket ask).keyLen.toNat = (keyFor opts ask.keyIndex).length :=
  UInt16.toNat_ofNat_of_lt (Nat.lt_succ_of_le short)

theorem extrasLen_header : (opts.header value vbucket ask).extrasLen.toNat = (extras ask.op).length := by
  rw [header]
  cases ask.op <;> rfl

/-- A request reaches the server as it was asked for. -/
structure Intact (opts : Options) (value : Bytes) (ask : Ask) (bytes : Bytes) : Prop where
  sent : opts.append value [] ask = some bytes
  isFrame : Connection.requestFramer.IsFrame bytes
  fields : ∃ call : Connection.Call,
    (Connection.parseAndDispatch Connection.plainServer
      { Connection.Conn.new with readBuf := [bytes] }).handed = [call] ∧
      call.op = ask.op.opcode ∧ some call.hdr.specific = vbucketFor (keyFor opts ask.keyIndex) opts.vbuckets ∧
      (beBytes 4 call.hdr.opaqueWord.toNat).reverse = beBytes 4 ask.opaqueId.toNat ∧
      match ask.op with
      | .get => (Connection.handleGetKey call).2 = keyFor opts ask.keyIndex
      | .set =>
        let fields := Connection.handleSet call
        fields.key = keyFor opts ask.keyIndex ∧ fields.flags = 0 ∧ fields.expiry = 0 ∧
          ∃ valueLen, valueLenFor opts ask.keyIndex = some valueLen ∧ fields.value = value.take valueLen.toNat ∧
            fields.value.length = valueLen.toNat

/-- No divisor is zero, and a value to send is not one of length zero cut from a longer buffer, and the body fits its
length field. -/
def Fits (opts : Options) (value : Bytes) (ask : Ask) : Prop :=
  (opts.vbuckets ≠ 0 ∧ opts.valdist ≠ .uniform 0 0xFFFFFFFFFFFFFFFF) ∧
    (ask.op = .set → (opts.askedLen ask ≠ 0 ∨ value = []) ∧
      8 + (keyFor opts ask.keyIndex).length + opts.askedLen ask < 2 ^ 32)

theorem sentLen_of_set (isSet : ask.op = .set) : opts.sentLen value ask = opts.askedLen ask ↔
    opts.askedLen ask ≠ 0 ∨ value = [] := by
  rw [sentLen, isSet]
  dsimp only
  split
  · next zero => simp [zero]
  · next some => simp [some]

theorem handed_request
    (isFrame : Connection.requestFramer.IsFrame ((opts.header value vbucket ask).push ++ opts.body value ask)) :
    (Connection.parseAndDispatch Connection.plainServer
      { Connection.Conn.new with readBuf := [(opts.header value vbucket ask).push ++ opts.body value ask] }).handed =
      [⟨opts.header value vbucket ask, ask.op.opcode, some (opts.body value ask)⟩] := by
  obtain ⟨magic, _, whole⟩ := Connection.isFrame_push_iff.mp isFrame
  refine Connection.handed_push magic (Opcode.ofCode?_code _) whole ?_
  rw [body]
  exact List.append_ne_nil_of_left_ne_nil (List.append_ne_nil_of_right_ne_nil _ (keyFor_ne_nil _ _)) _

/-- The bytes of a request, where it has a vbucket. -/
def part (opts : Options) (value : Bytes) (ask : Ask) : Bytes :=
  (opts.header value ((vbucketFor (keyFor opts ask.keyIndex) opts.vbuckets).getD 0) ask).push ++ opts.body value ask

theorem vbucketFor_eq (some : opts.vbuckets ≠ 0) (key : Bytes) :
    vbucketFor key opts.vbuckets = Option.some ((vbucketFor key opts.vbuckets).getD 0) := by
  rw [vbucketFor, if_neg some]
  rfl

theorem append_part (accepted : opts.Accepted) (fits : opts.Fits value ask) (out : Bytes) :
    opts.append value out ask = some (out ++ opts.part value ask) :=
  (append_eq_some_iff opts value).mpr
    ⟨_, vbucketFor_eq fits.1.1 _, (valueLenFor_eq_some_iff accepted ask.keyIndex).mpr fits.1.2, rfl⟩

theorem foldlM_append (accepted : opts.Accepted) {asks : List Ask} (fits : ∀ ask ∈ asks, opts.Fits value ask)
    (out : Bytes) : asks.foldlM (opts.append value) out = some (out ++ (asks.map (opts.part value)).flatten) := by
  induction asks generalizing out with
  | nil =>
    rw [List.map_nil, List.flatten_nil, List.append_nil, List.foldlM_nil]
    rfl
  | cons ask asks ih =>
    obtain ⟨here, later⟩ := List.forall_mem_cons.mp fits
    rw [List.foldlM_cons, append_part accepted here]
    change asks.foldlM (opts.append value) (out ++ opts.part value ask) = _
    rw [ih later, List.map_cons, List.flatten_cons, List.append_assoc]

section

variable (accepted : opts.Accepted) (buffer : value.length = max opts.valsize.toNat opts.valMax.toNat)
include accepted buffer

theorem sentLen_le (ask : Ask) : opts.sentLen value ask ≤ ((valueOf value ask.op).getD []).length := by
  have most := askedLen_le accepted ask
  unfold sentLen valueOf
  cases ask.op with
  | get => exact Nat.zero_le _
  | set =>
    show (if _ then _ else _) ≤ value.length
    split <;> omega

theorem length_body (ask : Ask) :
    (opts.body value ask).length =
      (extras ask.op).length + (keyFor opts ask.keyIndex).length + opts.sentLen value ask := by
  rw [body, List.length_append, List.length_append, List.length_take,
    Nat.min_eq_left (sentLen_le accepted buffer ask)]

/-- The fields `handleSet` takes from a SET that is one frame. -/
theorem handleSet_body (isSet : ask.op = .set) (short : (keyFor opts ask.keyIndex).length ≤ 65535)
    (whole : (opts.body value ask).length = (opts.header value vbucket ask).bodyLen.toNat) :
    Connection.handleSet ⟨opts.header value vbucket ask, ask.op.opcode, some (opts.body value ask)⟩ =
      ⟨vbucket, (opts.header value vbucket ask).opaqueWord, 0, 0, 0, keyFor opts ask.keyIndex,
        value.take (opts.sentLen value ask)⟩ := by
  have size : (opts.body value ask).length = _ := length_body accepted buffer ask
  have keyLen : (opts.header value vbucket ask).keyLen.toNat = _ := keyLen_header short
  have extrasLen : (opts.header value vbucket ask).extrasLen.toNat = _ := extrasLen_header
  have rest : _ = (opts.header value vbucket ask).bodyLen.toNat := Connection.setValueLen_of_fits (by omega)
  have eight : (extras ask.op).length = 8 := by
    rw [isSet]
    rfl
  have some : (valueOf value ask.op).getD [] = value := by
    rw [isSet]
    rfl
  have inside := sentLen_le accepted buffer ask
  rw [some] at inside
  have sent : (value.take (opts.sentLen value ask)).length =
      (Connection.setValueLen (opts.header value vbucket ask)).toNat := by
    rw [List.length_take, Nat.min_eq_left inside]
    omega
  obtain ⟨key, tail⟩ := window_body opts value ask
  rw [some, sent, eight] at tail
  rw [eight] at key
  have zeros : ∀ off len, off + len ≤ 8 →
      window (opts.body value ask) off len = window (List.replicate 8 0) off len := by
    intro off len inside
    rw [body, List.append_assoc, isSet]
    exact window_append inside _
  simp only [Connection.handleSet, keyLen, extrasLen, key, tail, eight, zeros 0 4 (by decide), zeros 4 4 (by decide)]
  rfl

theorem isFrame_request_iff :
    Connection.requestFramer.IsFrame ((opts.header value vbucket ask).push ++ opts.body value ask) ↔
      (extras ask.op).length + (keyFor opts ask.keyIndex).length + opts.sentLen value ask < 2 ^ 32 := by
  have size := length_body accepted buffer ask
  have announced : (opts.header value vbucket ask).bodyLen.toNat =
    ((extras ask.op).length + (keyFor opts ask.keyIndex).length + opts.sentLen value ask) % 2 ^ 32 :=
      UInt32.toNat_ofNat'
  rw [Connection.isFrame_push_iff, announced, size]
  constructor
  · rintro ⟨_, _, same⟩
    rw [same]
    exact Nat.mod_lt _ (by decide)
  · intro fits
    refine ⟨rfl, ?_, (Nat.mod_eq_of_lt fits).symm⟩
    show Opcode.ofCode? ask.op.opcode.code ≠ none
    rw [Opcode.ofCode?_code]
    exact Option.some_ne_none _

/-- One request. -/
theorem intact_iff (short : (keyFor opts ask.keyIndex).length ≤ 65535)
    (found : vbucketFor (keyFor opts ask.keyIndex) opts.vbuckets = some vbucket)
    (divides : opts.valdist ≠ .uniform 0 0xFFFFFFFFFFFFFFFF) :
    opts.Intact value ask ((opts.header value vbucket ask).push ++ opts.body value ask) ↔
      (ask.op = .set → (opts.askedLen ask ≠ 0 ∨ value = []) ∧
        8 + (keyFor opts ask.keyIndex).length + opts.askedLen ask < 2 ^ 32) := by
  obtain ⟨valueLen, given⟩ := (valueLenFor_eq_some_iff accepted ask.keyIndex).mpr divides
  have asked : opts.askedLen ask = valueLen.toNat := by rw [askedLen, given, Option.getD_some]
  have frameIff : Connection.requestFramer.IsFrame ((opts.header value vbucket ask).push ++ opts.body value ask) ↔ _ :=
    isFrame_request_iff accepted buffer
  have inside := sentLen_le accepted buffer ask
  constructor
  · intro intact isSet
    have below := frameIff.mp intact.isFrame
    obtain ⟨call, handed, _, _, _, fields⟩ := intact.fields
    obtain ⟨_, _, whole⟩ := Connection.isFrame_push_iff.mp intact.isFrame
    obtain rfl := List.singleton_inj.mp ((handed_request intact.isFrame).symm.trans handed)
    have read := handleSet_body accepted buffer isSet short whole
    rw [isSet] at fields below inside
    obtain ⟨_, _, _, _, given', _, length⟩ := fields
    obtain rfl := Option.some.inj (given.symm.trans given')
    have same : opts.sentLen value ask = opts.askedLen ask := by
      rw [← isSet, read] at length
      exact (List.length_take_of_le inside).symm.trans (length.trans asked.symm)
    exact ⟨(sentLen_of_set isSet).mp same, same ▸ below⟩
  · intro fits
    have below : (extras ask.op).length + (keyFor opts ask.keyIndex).length + opts.sentLen value ask < 2 ^ 32 := by
      cases isOp : ask.op with
      | get =>
        rw [sentLen, isOp]
        show 0 + (keyFor opts ask.keyIndex).length + 0 < 2 ^ 32
        omega
      | set =>
        rw [(sentLen_of_set isOp).mpr (fits isOp).1]
        exact (fits isOp).2
    have isFrame := frameIff.mpr below
    obtain ⟨_, _, whole⟩ := Connection.isFrame_push_iff.mp isFrame
    refine ⟨?_, isFrame, _, handed_request isFrame, rfl, found.symm, id_bytes _, ?_⟩
    · exact (append_eq_some_iff opts value).mpr ⟨vbucket, found, ⟨valueLen, given⟩, List.nil_append _⟩
    · cases isOp : ask.op with
      | get =>
        have extrasLen : (opts.header value vbucket ask).extrasLen.toNat = _ := extrasLen_header
        have keyLen : (opts.header value vbucket ask).keyLen.toNat = _ := keyLen_header short
        show window (opts.body value ask) (opts.header value vbucket ask).extrasLen.toNat
          (opts.header value vbucket ask).keyLen.toNat = _
        rw [extrasLen, keyLen]
        exact (window_body opts value ask).1
      | set =>
        have same := (sentLen_of_set isOp).mpr (fits isOp).1
        have read := handleSet_body accepted buffer isOp short whole
        rw [isOp, same, asked] at read inside
        rw [read]
        exact ⟨rfl, rfl, rfl, valueLen, given, rfl, List.length_take_of_le inside⟩

theorem fits_of_intact (short : (keyFor opts ask.keyIndex).length ≤ 65535) {bytes : Bytes}
    (intact : opts.Intact value ask bytes) : opts.Fits value ask := by
  obtain ⟨vbucket, found, given, rfl⟩ := (append_eq_some_iff opts value).mp intact.sent
  have divides := (valueLenFor_eq_some_iff accepted ask.keyIndex).mp given
  refine ⟨⟨?_, divides⟩, (intact_iff accepted buffer short found divides).mp intact⟩
  intro zero
  rw [vbucketFor, if_pos zero] at found
  cases found

theorem intact_parts {asks : List Ask} (short : ∀ ask ∈ asks, (keyFor opts ask.keyIndex).length ≤ 65535)
    (fits : ∀ ask ∈ asks, opts.Fits value ask) :
    List.Forall₂ (opts.Intact value) asks (asks.map (opts.part value)) := by
  rw [List.forall₂_map_right_iff, List.forall₂_same]
  intro ask member
  obtain ⟨⟨some, divides⟩, fits⟩ := fits ask member
  exact (intact_iff accepted buffer (short ask member) (vbucketFor_eq some _) divides).mpr fits

/-- The server cuts the requests of a batch apart where the client began them. -/
theorem frames_parts {asks : List Ask} (short : ∀ ask ∈ asks, (keyFor opts ask.keyIndex).length ≤ 65535)
    (fits : ∀ ask ∈ asks, opts.Fits value ask) :
    Connection.requestFramer.frames (asks.map (opts.part value)).flatten = (asks.map (opts.part value), false) := by
  have intact := intact_parts accepted buffer short fits
  rw [List.forall₂_map_right_iff, List.forall₂_same] at intact
  have areFrames : ∀ frame ∈ asks.map (opts.part value), Connection.requestFramer.IsFrame frame :=
    List.forall_mem_map.mpr fun ask member => (intact ask member).isFrame
  have cut := Framer.frames_flatten_append areFrames []
  have ended : Connection.requestFramer.frames [] = ([], false) := Framer.frames_of_more rfl
  rwa [ended, List.append_nil, List.append_nil] at cut

end

/-- The requests of a batch are cut apart by the server and each arrives as it was asked for, exactly if the client
divides by zero for none of them, no SET is for a value of length zero while the buffer is not empty, and the body of
none is longer than its length field can say. -/
theorem requests_arrive_intact_iff (accepted : opts.Accepted)
    (buffer : value.length = max opts.valsize.toNat opts.valMax.toNat) {asks : List Ask}
    (short : ∀ ask ∈ asks, (keyFor opts ask.keyIndex).length ≤ 65535) :
    (∃ parts : List Bytes, opts.sendBuf value asks = some parts.flatten ∧
      Connection.requestFramer.frames parts.flatten = (parts, false) ∧ List.Forall₂ (opts.Intact value) asks parts) ↔
      ∀ ask ∈ asks, opts.Fits value ask := by
  constructor
  · rintro ⟨parts, sent, cut, intact⟩
    clear sent cut
    induction intact with
    | nil => exact fun _ member => absurd member List.not_mem_nil
    | cons head _ ih =>
      obtain ⟨here, later⟩ := List.forall_mem_cons.mp short
      exact List.forall_mem_cons.mpr ⟨fits_of_intact accepted buffer here head, ih later⟩
  · intro fits
    exact ⟨_, foldlM_append accepted fits [], frames_parts accepted buffer short fits,
      intact_parts accepted buffer short fits⟩

/-- A SET and a GET of the same key. -/
theorem requests_arrive_intact_iff_pair : ∃ parts : List Bytes,
    ({ valsize := 3 } : Options).sendBuf [1, 2, 3] [⟨.set, 7, 0⟩, ⟨.get, 7, 1⟩] = some parts.flatten ∧
      Connection.requestFramer.frames parts.flatten = (parts, false) ∧
      List.Forall₂ (Intact { valsize := 3 } [1, 2, 3]) [⟨.set, 7, 0⟩, ⟨.get, 7, 1⟩] parts := by
  refine (requests_arrive_intact_iff (by decide) (by decide) (by decide)).mpr ?_
  intro ask member
  refine ⟨⟨by decide, nofun⟩, fun _ => ?_⟩
  rcases List.mem_cons.mp member with rfl | member
  · exact ⟨.inl (by decide), by decide⟩
  · obtain rfl := List.mem_singleton.mp member
    exact ⟨.inl (by decide), by decide⟩

/-- Under `-valdist uniform:0:10` the key of index 10 is to have an empty value, and is sent one of 1024 bytes. -/
theorem empty_value_is_sent_full :
    let opts : Options := { valdist := .uniform 0 10 }
    let value : Bytes := List.replicate 1024 0x78
    opts.Accepted ∧ value.length = max opts.valsize.toNat opts.valMax.toNat ∧ valueLenFor opts 10 = some 0 ∧
      ∃ bytes, opts.append value [] ⟨.set, 10, 0⟩ = some bytes ∧ ∃ call : Connection.Call,
        (Connection.parseAndDispatch Connection.plainServer
          { Connection.Conn.new with readBuf := [bytes] }).handed = [call] ∧
        (Connection.handleSet call).value.length = 1024 := by
  intro opts value
  have accepted : opts.Accepted := by decide
  have buffer : value.length = max opts.valsize.toNat opts.valMax.toNat := List.length_replicate
  let ask : Ask := ⟨.set, 10, 0⟩
  have isFrame : Connection.requestFramer.IsFrame (opts.part value ask) :=
    (isFrame_request_iff accepted buffer).mpr (by decide +kernel)
  have sent : opts.append value [] ask = some (opts.part value ask) :=
    (append_eq_some_iff opts value).mpr ⟨_, vbucketFor_eq (by decide) _, ⟨0, by decide⟩, List.nil_append _⟩
  obtain ⟨_, _, whole⟩ := Connection.isFrame_push_iff.mp isFrame
  refine ⟨accepted, buffer, by decide, _, sent, _, handed_request isFrame, ?_⟩
  rw [handleSet_body accepted buffer rfl (by decide) whole]
  decide +kernel

end Options

end FluxKV.Client
