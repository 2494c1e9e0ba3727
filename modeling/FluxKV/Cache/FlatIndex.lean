import FluxKV.ToMathlib.LinearProbing

/-! # The index of a cache shard

An open-addressing table from key hashes to entries that doubles when seven tenths of it are in use.
The keys are not stored: a search under a hash asks its caller whether an entry is the right one.
-/

namespace FluxKV.Cache

open LinearProbing

/-- `FlatIndex`. Retired tables are kept for readers that only prefetch and are left out. -/
structure FlatIndex (P : Type*) where
  table : Option (Table P)
  count : ℕ

namespace FlatIndex

variable {P : Type*}

def empty : FlatIndex P := ⟨none, 0⟩

def find (x : FlatIndex P) (h : UInt64) (eq : P → Bool) : Option P := x.table.bind fun t => t.find h eq

def grow : Option (Table P) → Table P
  | none => .empty 10
  | some old => (Table.empty (old.bits + 1)).placeAll old old.cap

/-- The table an insertion goes to. -/
def roomy (x : FlatIndex P) : Table P :=
  match x.table with
  | none => grow none
  | some t => if t.cap * 7 < (x.count + 1) * 10 then grow (some t) else t

def insert (x : FlatIndex P) (h : UInt64) (e : P) : FlatIndex P := ⟨some (x.roomy.place h e), x.count + 1⟩

def erase [DecidableEq P] (x : FlatIndex P) (h : UInt64) (e : P) : FlatIndex P :=
  match x.table with
  | none => x
  | some t =>
    match t.erase h e with
    | none => x
    | some t' => ⟨some t', x.count - 1⟩

def Mem (x : FlatIndex P) (h : UInt64) (e : P) : Prop := ∃ t, x.table = some t ∧ t.Mem h e

/-- The table finds all it holds and is at most seven tenths full. -/
structure Sound (x : FlatIndex P) : Prop where
  unused : x.table = none → x.count = 0
  table : ∀ t, x.table = some t → t.Sound ∧ t.used = x.count ∧ x.count * 10 ≤ t.cap * 7 ∧ 1 < t.cap

theorem Sound.empty : (FlatIndex.empty : FlatIndex P).Sound := ⟨fun _ => rfl, fun t held => by cases held⟩

theorem not_mem_empty (h : UInt64) (e : P) : ¬ (FlatIndex.empty : FlatIndex P).Mem h e := by
  rintro ⟨t, held, _⟩
  cases held

theorem Sound.find_eq_some {x : FlatIndex P} (sound : x.Sound) {h : UInt64} {eq : P → Bool} {e : P}
    (unique : ∀ e₁ e₂, x.Mem h e₁ → x.Mem h e₂ → eq e₁ = true → eq e₂ = true → e₁ = e₂) :
    x.find h eq = some e ↔ x.Mem h e ∧ eq e = true := by
  unfold find
  cases held : x.table with
  | none => simp [Mem, held]
  | some t =>
    have mem : ∀ e', x.Mem h e' ↔ t.Mem h e' := by simp [Mem, held]
    rw [Option.bind_some, mem]
    apply (sound.table t held).1.find_eq_some
    intro e₁ e₂ first second
    exact unique e₁ e₂ ((mem e₁).mpr first) ((mem e₂).mpr second)

private theorem blank_sound (bits : ℕ) : (Table.empty bits : Table P).Sound ∧ (Table.empty bits : Table P).used = 0 ∧
    ∀ h e, ¬ (Table.empty bits : Table P).Mem h e := by
  refine ⟨⟨fun p _ s there => ?_, fun p _ _ _ s _ there => ?_⟩, by simp [Table.used, Table.empty], ?_⟩
  · cases there
  · cases there
  · rintro h e ⟨p, _, there⟩
    cases there

/-- Doubling moves every entry. -/
private theorem grow_spec {t : Table P} (sound : t.Sound) :
    (grow (some t)).Sound ∧ (grow (some t)).cap = t.cap * 2 ∧ (grow (some t)).used = t.used ∧
      ∀ h e, (grow (some t)).Mem h e ↔ t.Mem h e := by
  have double : (Table.empty (t.bits + 1) : Table P).cap = t.cap * 2 := Nat.pow_succ ..
  have pos := t.cap_pos
  obtain ⟨after, cap, used, members⟩ :=
    sound.placeAll (.empty (t.bits + 1)) (fun _ => rfl) (by omega) t.cap le_rfl
  exact ⟨after, cap.trans double, used, members⟩

/-- The table an insertion goes to holds what the index held, and has room for one more. -/
private theorem roomy_spec {x : FlatIndex P} (sound : x.Sound) :
    x.roomy.Sound ∧ x.roomy.used = x.count ∧ (x.count + 1) * 10 ≤ x.roomy.cap * 7 ∧ 1 < x.roomy.cap ∧
      ∀ h e, x.roomy.Mem h e ↔ x.Mem h e := by
  unfold roomy
  cases held : x.table with
  | none =>
    obtain ⟨blank, used, none⟩ := blank_sound (P := P) 10
    have cap : (grow Option.none : Table P).cap = 1024 := rfl
    have count := sound.unused held
    dsimp only
    refine ⟨blank, used.trans count.symm, by omega, by omega, fun h e => ⟨fun member => ?_, ?_⟩⟩
    · exact (none h e member).elim
    · rintro ⟨t, there, _⟩
      cases held.symm.trans there
  | some t =>
    obtain ⟨before, used, load, large⟩ := sound.table t held
    have mem : ∀ h e, t.Mem h e ↔ x.Mem h e := by simp [Mem, held]
    dsimp only
    split
    · obtain ⟨after, cap, used', members⟩ := grow_spec before
      exact ⟨after, used'.trans used, by omega, by omega, fun h e => (members h e).trans (mem h e)⟩
    · exact ⟨before, used, by omega, large, mem⟩

theorem Sound.insert {x : FlatIndex P} (sound : x.Sound) (h : UInt64) {e : P} (fresh : ∀ h', ¬ x.Mem h' e) :
    (x.insert h e).Sound ∧ ∀ h' e', (x.insert h e).Mem h' e' ↔ (h' = h ∧ e' = e) ∨ x.Mem h' e' := by
  obtain ⟨roomy, used, load, large, members⟩ := roomy_spec sound
  obtain ⟨after, used', members'⟩ := roomy.place (by omega) (h := h) fun h' member => fresh h' ((members h' e).mp member)
  refine ⟨⟨fun none => ?_, ?_⟩, fun h' e' => ?_⟩
  · cases none
  · rintro t held
    cases held
    exact ⟨after, by rw [used', used]; rfl, load, large⟩
  · rw [← members, ← members']
    simp [Mem, FlatIndex.insert]

theorem Sound.erase [DecidableEq P] {x : FlatIndex P} (sound : x.Sound) {h : UInt64} {e : P} (member : x.Mem h e) :
    (x.erase h e).Sound ∧ ∀ h' e', (x.erase h e).Mem h' e' ↔ x.Mem h' e' ∧ e' ≠ e := by
  obtain ⟨t, held, inside⟩ := member
  obtain ⟨before, used, load, large⟩ := sound.table t held
  obtain ⟨t', erased, after, cap, used', members⟩ := before.erase (by omega) large inside
  have shape : x.erase h e = ⟨some t', x.count - 1⟩ := by simp only [FlatIndex.erase, held, erased]
  rw [shape]
  refine ⟨⟨fun none => ?_, ?_⟩, fun h' e' => ?_⟩
  · cases none
  · rintro t'' same
    cases same
    exact ⟨after, by dsimp only; omega, by dsimp only; omega, by omega⟩
  · simp [Mem, held, members]

/-- Erasing what is not there changes nothing. -/
theorem erase_of_not_mem [DecidableEq P] {x : FlatIndex P} {e : P} (h : UInt64) (absent : ∀ h', ¬ x.Mem h' e) :
    x.erase h e = x := by
  unfold erase
  cases held : x.table with
  | none => rfl
  | some t =>
    have missed : t.erase h e = none := by
      rw [Table.erase, Option.map_eq_none_iff, Option.eq_none_iff_forall_ne_some]
      intro p probed
      obtain ⟨inside, s, there, accepted⟩ := Table.probe_spec (t.home_lt h) probed
      exact absent s.1 ⟨t, held, p, inside, by rw [there, ← of_decide_eq_true accepted]⟩
    simp only [missed]

end FlatIndex

end FluxKV.Cache
