import Mathlib.Data.List.Nodup
import Mathlib.Logic.Function.Basic

/-! # Intrusive doubly linked lists

The nodes of a list carry its links, so a node can be taken out without a search. Several lists may
share one memory as long as no node is on two of them. `Chain` ties the links and the two ends of a
list to the sequence of its nodes, here from the tail to the head.
-/

namespace FluxKV.IntrusiveList

variable {P : Type*}

/-- The link fields of all nodes. `prev` leads towards the head and `next` towards the tail. -/
structure Links (P : Type*) where
  prev : P → Option P
  next : P → Option P

structure Ends (P : Type*) where
  head : Option P
  tail : Option P
deriving DecidableEq, Repr

/-- The ends and links describe the list with these nodes. -/
structure Chain (l : Links P) (q : Ends P) (items : List P) : Prop where
  nodup : items.Nodup
  head : q.head = items.getLast?
  tail : q.tail = items.head?
  links : ∀ before e after, items = before ++ e :: after → l.prev e = after.head? ∧ l.next e = before.getLast?

theorem Chain.nil (l : Links P) : Chain l ⟨none, none⟩ [] :=
  ⟨.nil, rfl, rfl, fun _ _ _ split => by simp at split⟩

/-- A list depends only on the links of its own nodes. -/
theorem Chain.congr {l l' : Links P} {q : Ends P} {items : List P} (chain : Chain l q items)
    (same : ∀ x ∈ items, l'.prev x = l.prev x ∧ l'.next x = l.next x) : Chain l' q items := by
  refine { chain with links := fun before e after split => ?_ }
  obtain ⟨prev, next⟩ := same e (by simp [split])
  rw [prev, next]
  exact chain.links before e after split

private theorem getLast?_append_cons_cons (before rest : List P) (x y : P) :
    (before ++ x :: y :: rest).getLast? = (y :: rest).getLast? := by
  rw [List.getLast?_append, List.getLast?_cons_cons, Option.or_of_isSome (by simp)]

private theorem append_eq_append_cons {before after b a : List P} {x : P} (split : before ++ after = b ++ x :: a) :
    (∃ part, b = before ++ part ∧ after = part ++ x :: a) ∨ ∃ part, before = b ++ x :: part ∧ a = part ++ after := by
  rcases List.append_eq_append_iff.mp split with ⟨part, left, right⟩ | ⟨part, left, right⟩
  · exact .inl ⟨part, left, right⟩
  · cases part with
    | nil => exact .inl ⟨[], by simpa using left.symm, right.symm⟩
    | cons y part =>
      obtain ⟨rfl, rest⟩ := List.cons_eq_cons.mp right
      exact .inr ⟨part, left, rest⟩

variable [DecidableEq P]

def pushHead (l : Links P) (q : Ends P) (e : P) : Links P × Ends P :=
  let own : Links P := ⟨Function.update l.prev e none, Function.update l.next e q.head⟩
  match q.head with
  | some h => ({ own with prev := Function.update own.prev h (some e) }, { q with head := some e })
  | none => (own, ⟨some e, some e⟩)

/-- The first half of `remove`: the neighbour towards the head. -/
def bypassPrev (l : Links P) (q : Ends P) (e : P) : Links P × Ends P :=
  match l.prev e with
  | some p => ({ l with next := Function.update l.next p (l.next e) }, q)
  | none => (l, { q with head := l.next e })

/-- The second half of `remove`: the neighbour towards the tail. -/
def bypassNext (l : Links P) (q : Ends P) (e : P) : Links P × Ends P :=
  match l.next e with
  | some n => ({ l with prev := Function.update l.prev n (l.prev e) }, q)
  | none => (l, { q with tail := l.prev e })

def remove (l : Links P) (q : Ends P) (e : P) : Links P × Ends P :=
  let first := bypassPrev l q e
  let second := bypassNext first.1 first.2 e
  (⟨Function.update second.1.prev e none, Function.update second.1.next e none⟩, second.2)

/-- `pushHead` writes to the new node and the old head only. -/
theorem pushHead_other {l : Links P} {q : Ends P} {e x : P} (new : x ≠ e) (below : q.head ≠ some x) :
    (pushHead l q e).1.prev x = l.prev x ∧ (pushHead l q e).1.next x = l.next x := by
  unfold pushHead
  cases top : q.head with
  | none => simp [new]
  | some h =>
    have off : x ≠ h := fun same => below (by rw [top, same])
    simp [new, off]

theorem Chain.pushHead {l : Links P} {q : Ends P} {items : List P} {e : P} (chain : Chain l q items)
    (fresh : e ∉ items) :
    Chain (pushHead l q e).1 (pushHead l q e).2 (items ++ [e]) := by
  have ends : (IntrusiveList.pushHead l q e).2 = ⟨some e, (items ++ [e]).head?⟩ := by
    unfold IntrusiveList.pushHead
    cases top : q.head with
    | none =>
      rw [chain.head, List.getLast?_eq_none_iff] at top
      simp [top]
    | some h =>
      have filled : items ≠ [] := by
        rintro rfl
        simp [chain.head] at top
      simp [chain.tail, List.head?_append_of_ne_nil _ filled]
  rw [ends]
  refine ⟨List.Nodup.append chain.nodup (List.nodup_singleton e) (by simpa using fresh), by simp, rfl, ?_⟩
  intro before x after split
  rcases List.eq_nil_or_concat after with rfl | ⟨rest, last, rfl⟩
  · obtain ⟨rfl, same⟩ := List.append_inj' split rfl
    cases same
    unfold IntrusiveList.pushHead
    cases top : q.head with
    | none => simp [← chain.head, top]
    | some h =>
      have off : e ≠ h := by
        rintro rfl
        exact fresh (List.mem_of_getLast? (chain.head.symm.trans top))
      simp [← chain.head, top, off]
  · have parts : items ++ [e] = (before ++ x :: rest) ++ [last] := by simpa using split
    obtain ⟨rfl, same⟩ := List.append_inj' parts rfl
    cases same
    obtain ⟨prev, next⟩ := chain.links before x rest rfl
    have new : x ≠ e := by
      rintro rfl
      simp at fresh
    have nodup := chain.nodup
    cases rest with
    | nil =>
      have top : q.head = some x := by simp [chain.head]
      simp [IntrusiveList.pushHead, top, new, next]
    | cons y rest =>
      have below : q.head ≠ some x := by
        rw [chain.head, getLast?_append_cons_cons]
        intro last
        exact (List.nodup_cons.mp nodup.of_append_right).1 (List.mem_of_getLast? last)
      obtain ⟨prev', next'⟩ := pushHead_other (l := l) new below
      rw [prev', next', prev, next]
      simp

private theorem bypassPrev_own (l : Links P) (q : Ends P) {e : P} (loop : l.prev e ≠ some e) :
    (bypassPrev l q e).1.prev = l.prev ∧ (bypassPrev l q e).1.next e = l.next e := by
  unfold bypassPrev
  cases up : l.prev e with
  | none => simp
  | some p =>
    have off : e ≠ p := fun same => loop (by rw [up, ← same])
    simp [off]

theorem remove_prev {l : Links P} {q : Ends P} {e : P} (loop : l.prev e ≠ some e) (x : P) :
    (remove l q e).1.prev x = if x = e then none else if l.next e = some x then l.prev e else l.prev x := by
  obtain ⟨prev, next⟩ := bypassPrev_own l q loop
  unfold remove bypassNext
  simp only [prev, next]
  by_cases self : x = e
  · simp [self]
  · cases down : l.next e with
    | none => simp [self, prev]
    | some n =>
      by_cases below : n = x
      · simp [self, below]
      · simp [self, below, Ne.symm below]

theorem remove_next {l : Links P} {q : Ends P} {e : P} (x : P) :
    (remove l q e).1.next x = if x = e then none else if l.prev e = some x then l.next e else l.next x := by
  have second : ∀ (l : Links P) (q : Ends P), (bypassNext l q e).1.next = l.next := by
    intro l q
    unfold bypassNext
    split <;> rfl
  unfold remove
  simp only [second]
  unfold bypassPrev
  by_cases self : x = e
  · simp [self]
  · cases up : l.prev e with
    | none => simp [self]
    | some p =>
      by_cases above : p = x
      · simp [self, above]
      · simp [self, above, Ne.symm above]

theorem remove_head (l : Links P) (q : Ends P) (e : P) :
    (remove l q e).2.head = if (l.prev e).isSome then q.head else l.next e := by
  have second : ∀ (l : Links P) (q : Ends P), (bypassNext l q e).2.head = q.head := by
    intro l q
    unfold bypassNext
    split <;> rfl
  unfold remove
  rw [second]
  unfold bypassPrev
  cases up : l.prev e with
  | none | some => simp

theorem remove_tail {l : Links P} {q : Ends P} {e : P} (loop : l.prev e ≠ some e) :
    (remove l q e).2.tail = if (l.next e).isSome then q.tail else l.prev e := by
  obtain ⟨prev, next⟩ := bypassPrev_own l q loop
  have tail : (bypassPrev l q e).2.tail = q.tail := by
    unfold bypassPrev
    split <;> rfl
  unfold remove bypassNext
  simp only [prev, next]
  cases down : l.next e with
  | none => simp
  | some n => simp [tail]

/-- A node on the list is unlinked, wherever it stands. -/
theorem Chain.remove {l : Links P} {q : Ends P} {before after : List P} {e : P}
    (chain : Chain l q (before ++ e :: after)) :
    Chain (remove l q e).1 (remove l q e).2 (before ++ after) := by
  obtain ⟨prev, next⟩ := chain.links before e after rfl
  obtain ⟨left, right, apart⟩ := List.nodup_append'.mp chain.nodup
  obtain ⟨notAfter, right⟩ := List.nodup_cons.mp right
  have notBefore : e ∉ before := fun member => apart member (by simp)
  have loop : l.prev e ≠ some e := by
    rw [prev]
    exact fun same => notAfter (List.mem_of_head? same)
  have offAfter : ∀ x ∈ before, l.prev e ≠ some x := by
    intro x member same
    rw [prev] at same
    exact apart member (List.mem_cons_of_mem e (List.mem_of_head? same))
  have offBefore : ∀ x ∈ after, l.next e ≠ some x := by
    intro x member same
    rw [next] at same
    exact apart (List.mem_of_getLast? same) (List.mem_cons_of_mem e member)
  refine ⟨left.append right fun x first second => apart first (List.mem_cons_of_mem e second), ?_, ?_, ?_⟩
  · rw [remove_head, chain.head, prev, next]
    cases after with
    | nil => simp
    | cons y rest => simp [List.getLast?_append]
  · rw [remove_tail loop, chain.tail, prev, next]
    cases before with
    | nil | cons => simp
  intro b x a split
  rw [remove_prev loop, remove_next]
  rcases append_eq_append_cons split with ⟨part, rfl, rfl⟩ | ⟨part, rfl, rfl⟩
  · have self : x ≠ e := by
      rintro rfl
      simp at notAfter
    obtain ⟨prevX, nextX⟩ := chain.links (before ++ e :: part) x a (by simp)
    rw [if_neg self, if_neg self, if_neg (offBefore x (by simp)), prevX]
    refine ⟨rfl, ?_⟩
    cases part with
    | nil => simp [prev, next]
    | cons y rest =>
      have off : l.prev e ≠ some x := by
        rw [prev]
        rintro same
        cases same
        simp at right
      rw [if_neg off, nextX]
      simp [List.getLast?_append]
  · have self : x ≠ e := by
      rintro rfl
      simp at notBefore
    obtain ⟨prevX, nextX⟩ := chain.links b x (part ++ e :: after) (by simp)
    rw [if_neg self, if_neg self, if_neg (offAfter x (by simp)), nextX]
    refine ⟨?_, rfl⟩
    cases part with
    | nil => simp [prev, next]
    | cons y rest =>
      have off : l.next e ≠ some x := by
        rw [next, getLast?_append_cons_cons]
        exact fun same => (List.nodup_cons.mp left.of_append_right).1 (List.mem_of_getLast? same)
      rw [if_neg off, prevX]
      simp

/-- `remove` writes to the node and its neighbours only. -/
theorem Chain.remove_other {l : Links P} {q : Ends P} {items : List P} {e x : P} (chain : Chain l q items)
    (member : e ∈ items) (outside : x ∉ items) :
    (IntrusiveList.remove l q e).1.prev x = l.prev x ∧ (IntrusiveList.remove l q e).1.next x = l.next x := by
  obtain ⟨before, after, rfl⟩ := List.append_of_mem member
  obtain ⟨prev, next⟩ := chain.links before e after rfl
  simp only [List.mem_append, List.mem_cons, not_or] at outside
  obtain ⟨notBefore, self, notAfter⟩ := outside
  have nodup := (List.nodup_cons.mp chain.nodup.of_append_right).1
  have loop : l.prev e ≠ some e := by
    rw [prev]
    exact fun same => nodup (List.mem_of_head? same)
  have offPrev : l.prev e ≠ some x := by
    rw [prev]
    exact fun same => notAfter (List.mem_of_head? same)
  have offNext : l.next e ≠ some x := by
    rw [next]
    exact fun same => notBefore (List.mem_of_getLast? same)
  rw [remove_prev loop, remove_next, if_neg self, if_neg self, if_neg offPrev, if_neg offNext]
  exact ⟨rfl, rfl⟩

end FluxKV.IntrusiveList
