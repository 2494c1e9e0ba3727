import FluxKV.Protocol.Header
import FluxKV.ToMathlib.Varint

/-! # Document metadata on disk

The store keeps a document's metadata in one of two forms and tells them apart by length. The legacy
form is the packed struct itself; the compact one has a header byte, varints for the seqno and the
value's size, and leaves out the flags, expiry and datatype that are zero. A compact form that would
come out as long as the legacy one gets a byte more, which readers pass over.
-/

namespace FluxKV.Engine

open Protocol Varint

/-- `struct DocMeta`. `deleted` is 0 for a live document and 1 for a deleted one. -/
structure DocMeta where
  seqno : UInt64
  cas : UInt64
  valueSize : UInt32
  flags : UInt32
  expiry : UInt32
  deleted : UInt8
  datatype : UInt8
deriving DecidableEq, Repr, Inhabited

namespace DocMeta

def kLegacySize : ℕ := 30
def kMaxCompactSize : ℕ := 1 + 10 + 8 + 10 + 4 + 4 + 1 + 1

def kMetaHasFlags : UInt8 := (1 : UInt8) <<< 0
def kMetaHasExpiry : UInt8 := (1 : UInt8) <<< 1
def kMetaDeleted : UInt8 := (1 : UInt8) <<< 2
def kMetaHasDatatype : UInt8 := (1 : UInt8) <<< 3
def kMetaVersionShift : UInt8 := 5
def kMetaVersion : UInt8 := 1

/-- The legacy form: the struct's bytes, in the host's order. -/
def encode (m : DocMeta) : Bytes :=
  leBytes 8 m.seqno.toNat ++ leBytes 8 m.cas.toNat ++ leBytes 4 m.valueSize.toNat ++ leBytes 4 m.flags.toNat ++
    leBytes 4 m.expiry.toNat ++ [m.deleted, m.datatype]

/-- The struct with these bytes. -/
def load (s : Bytes) : DocMeta where
  seqno := .ofNat (leNat (window s 0 8))
  cas := .ofNat (leNat (window s 8 8))
  valueSize := .ofNat (leNat (window s 16 4))
  flags := .ofNat (leNat (window s 20 4))
  expiry := .ofNat (leNat (window s 24 4))
  deleted := s.getD 28 0
  datatype := s.getD 29 0

/-- The header byte, for the fields there are. -/
def header (flags expiry deleted datatype : Bool) : UInt8 :=
  kMetaVersion <<< kMetaVersionShift ||| (if flags then kMetaHasFlags else 0) |||
    (if expiry then kMetaHasExpiry else 0) ||| (if deleted then kMetaDeleted else 0) |||
    (if datatype then kMetaHasDatatype else 0)

def hdr (m : DocMeta) : UInt8 := header (m.flags != 0) (m.expiry != 0) (m.deleted != 0) (m.datatype != 0)

/-- What the compact form has after its header. -/
def fields (m : DocMeta) : Bytes :=
  putVarint m.seqno ++ leBytes 8 m.cas.toNat ++ putVarint m.valueSize.toUInt64 ++
    (if m.flags ≠ 0 then leBytes 4 m.flags.toNat else []) ++
    (if m.expiry ≠ 0 then leBytes 4 m.expiry.toNat else []) ++ (if m.datatype ≠ 0 then [m.datatype] else [])

def encodeCompact (m : DocMeta) : Bytes :=
  let out := m.hdr :: m.fields
  if out.length = kLegacySize then out ++ [0] else out

/-- A field that is there if its header bit is set, and zero otherwise. -/
def getOptional (bit : UInt8) (width : ℕ) (p : Bytes) : Option (ℕ × Bytes) :=
  if bit ≠ 0 then getFixed width p else some (0, p)

/-- Either form. -/
def decode (s : Bytes) : Option DocMeta :=
  if s.length = kLegacySize then some (load s)
  else
    match s with
    | [] => none
    | hdr :: p =>
      if hdr >>> kMetaVersionShift ≠ kMetaVersion then none
      else do
        let (seq, p) ← getVarint p
        let (c, p) ← getFixed 8 p
        let (size, p) ← getVarint p
        if 2 ^ 32 ≤ size.toNat then none
        else do
          let (f, p) ← getOptional (hdr &&& kMetaHasFlags) 4 p
          let (e, p) ← getOptional (hdr &&& kMetaHasExpiry) 4 p
          let (dt, _) ← getOptional (hdr &&& kMetaHasDatatype) 1 p
          some {
            seqno := seq
            cas := .ofNat c
            valueSize := size.toUInt32
            flags := .ofNat f
            expiry := .ofNat e
            deleted := if hdr &&& kMetaDeleted ≠ 0 then 1 else 0
            datatype := .ofNat dt }

/-- The decoder with its out parameter: whether it succeeds, and what `*out` holds afterwards. -/
def decodeInto (s : Bytes) (out : DocMeta) : Bool × DocMeta :=
  if s.length = kLegacySize then (true, load s)
  else
    match s with
    | [] => (false, out)
    | hdr :: p =>
      if hdr >>> kMetaVersionShift ≠ kMetaVersion then (false, out)
      else match getVarint p with
      | none => (false, out)
      | some (seq, p) => match getFixed 8 p with
        | none => (false, out)
        | some (c, p) => match getVarint p with
          | none => (false, out)
          | some (size, p) =>
            if 2 ^ 32 ≤ size.toNat then (false, out)
            else match getOptional (hdr &&& kMetaHasFlags) 4 p with
            | none => (false, out)
            | some (f, p) => match getOptional (hdr &&& kMetaHasExpiry) 4 p with
              | none => (false, out)
              | some (e, p) => match getOptional (hdr &&& kMetaHasDatatype) 1 p with
                | none => (false, out)
                | some (dt, _) =>
                  -- the fields are published together, once all are read
                  (true, { out with
                    seqno := seq
                    cas := .ofNat c
                    valueSize := size.toUInt32
                    flags := .ofNat f
                    expiry := .ofNat e
                    deleted := if hdr &&& kMetaDeleted ≠ 0 then 1 else 0
                    datatype := .ofNat dt })

/-- `decode` for callers that cannot fail: an undecodable meta reads as zeros. -/
def decodeOrZero (s : Bytes) : DocMeta := (decode s).getD default

/-- The two forms a stored meta can have. -/
inductive Form where
  | legacy
  | compact
deriving DecidableEq, Repr

def Form.write : Form → DocMeta → Bytes
  | legacy => encode
  | compact => encodeCompact

@[simp] theorem encode_length (m : DocMeta) : m.encode.length = kLegacySize := by simp [encode, kLegacySize]

theorem load_encode (m : DocMeta) : load m.encode = m := by
  obtain ⟨seqno, cas, valueSize, flags, expiry, deleted, datatype⟩ := m
  simp only [load, mk.injEq]
  refine ⟨?_, ?_, ?_, ?_, ?_, rfl, rfl⟩
  · exact (congrArg UInt64.ofNat (leNat_leBytes 8 seqno.toNat_lt)).trans UInt64.ofNat_toNat
  · exact (congrArg UInt64.ofNat (leNat_leBytes 8 cas.toNat_lt)).trans UInt64.ofNat_toNat
  · exact (congrArg UInt32.ofNat (leNat_leBytes 4 valueSize.toNat_lt)).trans UInt32.ofNat_toNat
  · exact (congrArg UInt32.ofNat (leNat_leBytes 4 flags.toNat_lt)).trans UInt32.ofNat_toNat
  · exact (congrArg UInt32.ofNat (leNat_leBytes 4 expiry.toNat_lt)).trans UInt32.ofNat_toNat

theorem fields_length_le (m : DocMeta) : m.fields.length + 2 ≤ kMaxCompactSize := by
  have seqno := putVarint_length m.seqno
  have size := putVarint_length m.valueSize.toUInt64
  have present : ∀ (b : Prop) [Decidable b] (bytes : Bytes), (if b then bytes else []).length ≤ bytes.length := by
    intro b _ bytes
    split
    · exact le_rfl
    · exact Nat.zero_le _
  have flags := present (m.flags ≠ 0) (leBytes 4 m.flags.toNat)
  have expiry := present (m.expiry ≠ 0) (leBytes 4 m.expiry.toNat)
  have datatype := present (m.datatype ≠ 0) [m.datatype]
  simp only [leBytes_length, List.length_singleton] at flags expiry datatype
  simp only [fields, List.length_append, leBytes_length, kMaxCompactSize]
  omega

theorem encodeCompact_length (m : DocMeta) :
    m.encodeCompact.length ≤ kMaxCompactSize ∧ m.encodeCompact.length ≠ kLegacySize := by
  have bound := m.fields_length_le
  unfold encodeCompact
  dsimp only
  split
  · next equal =>
    rw [List.length_append, equal]
    decide
  · next other =>
    refine ⟨?_, other⟩
    rw [List.length_cons]
    omega

private theorem header_bits : ∀ f e d t : Bool, header f e d t >>> kMetaVersionShift = kMetaVersion ∧
    (header f e d t &&& kMetaHasFlags ≠ 0 ↔ f = true) ∧ (header f e d t &&& kMetaHasExpiry ≠ 0 ↔ e = true) ∧
    (header f e d t &&& kMetaDeleted ≠ 0 ↔ d = true) ∧ (header f e d t &&& kMetaHasDatatype ≠ 0 ↔ t = true) := by
  decide

/-- The header says which fields there are. -/
theorem hdr_spec (m : DocMeta) : m.hdr >>> kMetaVersionShift = kMetaVersion ∧
    (m.hdr &&& kMetaHasFlags ≠ 0 ↔ m.flags ≠ 0) ∧ (m.hdr &&& kMetaHasExpiry ≠ 0 ↔ m.expiry ≠ 0) ∧
    (m.hdr &&& kMetaDeleted ≠ 0 ↔ m.deleted ≠ 0) ∧ (m.hdr &&& kMetaHasDatatype ≠ 0 ↔ m.datatype ≠ 0) := by
  unfold hdr
  simpa only [bne_iff_ne] using header_bits (m.flags != 0) (m.expiry != 0) (m.deleted != 0) (m.datatype != 0)

/-- A field that was left out reads as the zero it was, and has no bytes to lose. -/
theorem reads_optional {bit : UInt8} {width n : ℕ} {there : Prop} [Decidable there] (known : bit ≠ 0 ↔ there)
    (zero : ¬ there → n = 0) (fits : n < 256 ^ width) :
    Reads (getOptional bit width) (if there then leBytes width n else []) n := by
  rcases Decidable.em there with present | absent
  · rw [if_pos present, show getOptional bit width = getFixed width from funext fun p => if_pos (known.mpr present)]
    exact reads_leBytes width fits
  · rw [if_neg absent, zero absent]
    refine ⟨fun rest => if_neg (mt known.mp absent), fun p nothing some => ?_⟩
    exact absurd (List.prefix_nil.mp nothing) some

theorem reads_flags (m : DocMeta) : Reads (getOptional (m.hdr &&& kMetaHasFlags) 4)
    (if m.flags ≠ 0 then leBytes 4 m.flags.toNat else []) m.flags.toNat :=
  reads_optional m.hdr_spec.2.1 (fun zero => by rw [not_not.mp zero]; rfl) m.flags.toNat_lt

theorem reads_expiry (m : DocMeta) : Reads (getOptional (m.hdr &&& kMetaHasExpiry) 4)
    (if m.expiry ≠ 0 then leBytes 4 m.expiry.toNat else []) m.expiry.toNat :=
  reads_optional m.hdr_spec.2.2.1 (fun zero => by rw [not_not.mp zero]; rfl) m.expiry.toNat_lt

theorem reads_datatype (m : DocMeta) : Reads (getOptional (m.hdr &&& kMetaHasDatatype) 1)
    (if m.datatype ≠ 0 then [m.datatype] else []) m.datatype.toNat := by
  have word : [m.datatype] = leBytes 1 m.datatype.toNat := by simp [leBytes, BigEndian.beBytes]
  rw [word]
  exact reads_optional m.hdr_spec.2.2.2.2 (fun zero => by rw [not_not.mp zero]; rfl) m.datatype.toNat_lt

/-- The decoder takes the fields it knows and passes over what follows them. -/
theorem decode_fields (m : DocMeta) (flag : m.deleted = 0 ∨ m.deleted = 1) (rest : Bytes)
    (length : (m.hdr :: (m.fields ++ rest)).length ≠ kLegacySize) :
    decode (m.hdr :: (m.fields ++ rest)) = some m := by
  have deleted := m.hdr_spec.2.2.2.1
  have size : m.valueSize.toUInt64.toNat < 2 ^ 32 := by
    rw [UInt32.toNat_toUInt64]
    exact m.valueSize.toNat_lt
  have tombstone : (if m.hdr &&& kMetaDeleted ≠ 0 then 1 else 0) = m.deleted := by
    rcases flag with live | gone
    · rw [if_neg (mt deleted.mp (not_not.mpr live)), live]
    · rw [if_pos (deleted.mpr (by rw [gone]; decide)), gone]
  rw [decode, if_neg length]
  dsimp only
  rw [if_neg (not_not.mpr m.hdr_spec.1), fields]
  simp only [List.append_assoc, getVarint_putVarint, Option.bind_eq_bind, Option.bind_some,
    getFixed_leBytes 8 m.cas.toNat_lt]
  rw [if_neg (Nat.not_le.mpr size), m.reads_flags.whole, Option.bind_some, m.reads_expiry.whole, Option.bind_some,
    m.reads_datatype.whole, Option.bind_some, tombstone]
  simp only [UInt64.ofNat_toNat, UInt32.ofNat_toNat, UInt8.ofNat_toNat, UInt32.toUInt32_toUInt64]

/-- Wherever the fields are cut, some reader misses its bytes. -/
theorem decode_cut (m : DocMeta) (p : Bytes) (cut : p <+: m.hdr :: m.fields) (short : p ≠ m.hdr :: m.fields)
    (length : p.length ≠ kLegacySize) : decode p = none := by
  rcases List.prefix_cons_iff.mp cut with rfl | ⟨q, rfl, within⟩
  · rfl
  have inside : q ≠ m.fields := mt (congrArg _) short
  rw [← List.append_nil m.fields] at within inside
  simp only [fields, List.append_assoc] at within inside
  rw [decode, if_neg length]
  dsimp only
  rw [if_neg (not_not.mpr m.hdr_spec.1)]
  refine (reads_putVarint m.seqno).bind_eq_none ?_ q within inside
  intro q within inside
  refine (reads_leBytes 8 m.cas.toNat_lt).bind_eq_none ?_ q within inside
  intro q within inside
  refine (reads_putVarint m.valueSize.toUInt64).bind_eq_none ?_ q within inside
  intro q within inside
  dsimp only
  split
  · rfl
  refine m.reads_flags.bind_eq_none ?_ q within inside
  intro q within inside
  refine m.reads_expiry.bind_eq_none ?_ q within inside
  intro q within inside
  refine m.reads_datatype.bind_eq_none ?_ q within inside
  intro q nothing some
  exact absurd (List.prefix_nil.mp nothing) some

/-- Both forms are read back, and the decoder tells them apart by their lengths. -/
theorem decode_write (m : DocMeta) (flag : m.deleted = 0 ∨ m.deleted = 1) (form : Form) :
    decode (form.write m) = some m := by
  cases form with
  | legacy => rw [Form.write, decode.eq_def, if_pos m.encode_length, m.load_encode]
  | compact =>
    have other := m.encodeCompact_length.2
    unfold Form.write
    unfold encodeCompact at other ⊢
    dsimp only at other ⊢
    split
    · next equal =>
      rw [if_pos equal] at other
      exact m.decode_fields flag [0] other
    · next unequal =>
      have whole := m.decode_fields flag []
      rw [List.append_nil] at whole
      exact whole unequal

/-- The compact form fits its buffer and is never as long as the legacy one; both decode to what was
encoded, whatever mix of the two a store holds. -/
theorem stored_meta_decodes (m : DocMeta) (flag : m.deleted = 0 ∨ m.deleted = 1) :
    m.encodeCompact.length ≤ kMaxCompactSize ∧ m.encodeCompact.length ≠ kLegacySize ∧
      decode m.encodeCompact = some m ∧ m.encode.length = kLegacySize ∧ decode m.encode = some m ∧
      ∀ store : List (Form × DocMeta), (∀ held ∈ store, held.2.deleted = 0 ∨ held.2.deleted = 1) →
        store.map (fun held => decode (held.1.write held.2)) = store.map fun held => some held.2 := by
  obtain ⟨short, other⟩ := m.encodeCompact_length
  refine ⟨short, other, m.decode_write flag .compact, m.encode_length, m.decode_write flag .legacy, ?_⟩
  intro store flags
  apply List.map_congr_left
  intro held member
  exact held.2.decode_write (flags held member) held.1

/-- A deleted document with flags and a datatype and no expiry. -/
theorem stored_meta_decodes_deleted :
    (encodeCompact ⟨300, 5, 7, 1, 0, 1, 3⟩).length = 17 ∧
      decode (encodeCompact ⟨300, 5, 7, 1, 0, 1, 3⟩) = some ⟨300, 5, 7, 1, 0, 1, 3⟩ :=
  ⟨by decide +kernel, (stored_meta_decodes _ (.inr rfl)).2.2.1⟩

/-- The decoder touches its out parameter only when it succeeds. -/
theorem decodeInto_eq (s : Bytes) (out : DocMeta) :
    decodeInto s out = ((decode s).isSome, (decode s).getD out) := by
  unfold decodeInto decode
  split
  · rfl
  cases s with
  | nil => rfl
  | cons hdr p =>
    dsimp only
    split
    · rfl
    cases getVarint p with
    | none => rfl
    | some read =>
      dsimp only [Option.bind_eq_bind, Option.bind_some]
      cases getFixed 8 read.2 with
      | none => rfl
      | some read =>
        dsimp only [Option.bind_some]
        cases getVarint read.2 with
        | none => rfl
        | some read =>
          dsimp only [Option.bind_some]
          split
          · rfl
          cases getOptional (hdr &&& kMetaHasFlags) 4 read.2 with
          | none => rfl
          | some read =>
            dsimp only [Option.bind_some]
            cases getOptional (hdr &&& kMetaHasExpiry) 4 read.2 with
            | none => rfl
            | some read =>
              dsimp only [Option.bind_some]
              cases getOptional (hdr &&& kMetaHasDatatype) 1 read.2 <;> rfl

/-- A cut anywhere makes the decoder fail, bytes after the fields do not matter, and a decoder that fails
leaves its out parameter as it was, or gives zeros where there is none. -/
theorem truncated_rejected_extended_decoded (m : DocMeta) (flag : m.deleted = 0 ∨ m.deleted = 1) (out : DocMeta) :
    (∀ p, p <+: m.encodeCompact → p ≠ m.encodeCompact → p.length ≠ kLegacySize →
        decodeInto p out = (false, out)) ∧
      (∀ t, t ≠ [] → m.encodeCompact.length + t.length ≠ kLegacySize →
        decodeInto (m.encodeCompact ++ t) out = (true, m)) ∧
      ∀ s, (decodeInto s out).1 = false → (decodeInto s out).2 = out ∧ decodeOrZero s = ⟨0, 0, 0, 0, 0, 0, 0⟩ := by
  refine ⟨?_, ?_, ?_⟩
  · intro p cut short length
    have fails : decode p = none := by
      unfold encodeCompact at cut short
      dsimp only at cut short
      split at cut
      · next padded =>
        -- of the padded form the only cut that keeps every field is the one as long as the legacy form
        rw [if_pos padded] at short
        rcases List.prefix_concat_iff.mp cut with whole | within
        · exact absurd whole short
        · exact m.decode_cut p within (fun same => length (same ▸ padded)) length
      · next bare =>
        rw [if_neg bare] at short
        exact m.decode_cut p cut short length
    rw [decodeInto_eq, fails]
    rfl
  · intro t _ length
    have decodes : decode (m.encodeCompact ++ t) = some m := by
      rw [← List.length_append] at length
      unfold encodeCompact at length ⊢
      dsimp only at length ⊢
      split
      · next padded =>
        rw [if_pos padded] at length
        rw [List.append_assoc, List.cons_append] at length ⊢
        exact m.decode_fields flag _ length
      · next bare =>
        rw [if_neg bare] at length
        exact m.decode_fields flag t length
    rw [decodeInto_eq, decodes]
    rfl
  · intro s fails
    rw [decodeInto_eq, Option.isSome_eq_false_iff, Option.isNone_iff_eq_none] at fails
    rw [decodeInto_eq, decodeOrZero, fails]
    exact ⟨rfl, rfl⟩

/-- The deleted document again: cut in the middle of its seqno, and with a byte more. -/
theorem truncated_rejected_extended_decoded_deleted :
    decodeInto ((encodeCompact ⟨300, 5, 7, 1, 0, 1, 3⟩).take 2) ⟨1, 2, 3, 4, 5, 0, 6⟩ =
        (false, ⟨1, 2, 3, 4, 5, 0, 6⟩) ∧
      decodeInto (encodeCompact ⟨300, 5, 7, 1, 0, 1, 3⟩ ++ [9]) ⟨1, 2, 3, 4, 5, 0, 6⟩ =
        (true, ⟨300, 5, 7, 1, 0, 1, 3⟩) := by
  have both := truncated_rejected_extended_decoded ⟨300, 5, 7, 1, 0, 1, 3⟩ (.inr rfl) ⟨1, 2, 3, 4, 5, 0, 6⟩
  exact ⟨both.1 _ (List.take_prefix _ _) (by decide +kernel) (by decide +kernel),
    both.2.1 [9] (by decide) (by decide +kernel)⟩

end DocMeta

end FluxKV.Engine
