import Mathlib.Data.List.Nodup

/-!
# Queues of linked nodes

A queue kept as nodes that point to the next one, with the addresses of the first and the last node.
A node keeps its address, and addresses are given out in order. `Holds` says which values a queue
holds, and there is one lemma for each operation.
-/

structure QueueNode (α : Type*) where
  value : α
  next : Option Nat
deriving DecidableEq, Repr

/-- The nodes made so far, at the addresses they were given. -/
structure LinkedQueue (α : Type*) where
  nodes : List (QueueNode α) := []
  first : Option Nat := none
  last : Option Nat := none
deriving DecidableEq, Repr

namespace LinkedQueue

variable {α : Type*}

def isEmpty (q : LinkedQueue α) : Bool := q.first = none

/-- The first value and the queue without it; `none` when there is no first node. -/
def poll (q : LinkedQueue α) : Option (α × LinkedQueue α) :=
  q.first.bind fun p => q.nodes[p]?.map fun node =>
    (node.value, { q with
      first := node.next
      last := if q.first = q.last then none else q.last })

/-- The queue with a new last node; `none` when there is a first node but no last one. -/
def offer (q : LinkedQueue α) (a : α) : Option (LinkedQueue α) :=
  let p := q.nodes.length
  let nodes := q.nodes ++ [⟨a, none⟩]
  if q.isEmpty then some ⟨nodes, some p, some p⟩
  else q.last.map fun z =>
    { q with nodes := nodes.modify z fun node => { node with next := some p }, last := some p }

/-- The nodes at the addresses `ps` hold the values, each with the address of the next. -/
def Linked (nodes : List (QueueNode α)) : List Nat → List α → Prop
  | [], l => l = []
  | p :: ps, l => ∃ a l', l = a :: l' ∧ nodes[p]? = some ⟨a, ps.head?⟩ ∧ Linked nodes ps l'

/-- The queue holds the values of the list, the first of them first. -/
def Holds (q : LinkedQueue α) (l : List α) : Prop :=
  ∃ ps : List Nat, ps.Nodup ∧ q.first = ps.head? ∧ q.last = ps.getLast? ∧ Linked q.nodes ps l

variable {q : LinkedQueue α} {nodes nodes' : List (QueueNode α)} {ps : List Nat} {l : List α} {a : α}

/-- The nodes of the queue are in the memory. -/
theorem Linked.lt (h : Linked nodes ps l) : ∀ p ∈ ps, p < nodes.length := by
  induction ps generalizing l with
  | nil => exact nofun
  | cons p ps ih =>
    obtain ⟨a, l', -, hp, hl⟩ := h
    intro r hr
    rcases List.mem_cons.mp hr with rfl | hr
    · exact (List.getElem?_eq_some_iff.mp hp).1
    · exact ih hl r hr

/-- A queue without nodes holds nothing. -/
theorem Linked.eq_nil_iff (h : Linked nodes ps l) : ps = [] ↔ l = [] := by
  cases ps with
  | nil => exact ⟨fun _ => h, fun _ => rfl⟩
  | cons p ps =>
    obtain ⟨a, l', rfl, -⟩ := h
    exact ⟨nofun, nofun⟩

/-- A new node behind the last one, which now points to it. -/
theorem Linked.snoc {z p : Nat} (h : Linked nodes (ps ++ [z]) l)
    (hkeep : ∀ r ∈ ps, nodes'[r]? = nodes[r]?)
    (hlast : ∀ node, nodes[z]? = some node → nodes'[z]? = some { node with next := some p })
    (hnew : nodes'[p]? = some ⟨a, none⟩) : Linked nodes' (ps ++ [z, p]) (l ++ [a]) := by
  induction ps generalizing l with
  | nil =>
    obtain ⟨b, l', rfl, hz, rfl⟩ := h
    exact ⟨b, [a], rfl, hlast _ hz, a, [], rfl, hnew, rfl⟩
  | cons r ps ih =>
    obtain ⟨b, l', rfl, hr, hl⟩ := h
    refine ⟨b, l' ++ [a], rfl, ?_, ih hl fun x hx => hkeep x (List.mem_cons_of_mem r hx)⟩
    rw [hkeep r List.mem_cons_self, hr]
    cases ps <;> rfl

theorem holds_empty : Holds ({} : LinkedQueue α) [] := ⟨[], List.nodup_nil, rfl, rfl, rfl⟩

/-- A queue is empty when it holds nothing. -/
theorem Holds.isEmpty_iff (h : q.Holds l) : q.isEmpty = true ↔ l = [] := by
  obtain ⟨ps, -, hfirst, -, hlinked⟩ := h
  rw [← hlinked.eq_nil_iff]
  unfold isEmpty
  rw [hfirst, decide_eq_true_iff]
  exact List.head?_eq_none_iff

/-- Polling takes the oldest. -/
theorem Holds.poll (h : q.Holds (a :: l)) : ∃ q', q.poll = some (a, q') ∧ q'.Holds l := by
  obtain ⟨ps, hnodup, hfirst, hlast, hlinked⟩ := h
  cases ps with
  | nil => cases hlinked
  | cons p ps =>
    obtain ⟨b, l', heq, hp, hl⟩ := hlinked
    obtain ⟨rfl, rfl⟩ := List.cons.inj heq
    obtain ⟨hpmem, hnodup⟩ := List.nodup_cons.mp hnodup
    rw [List.head?_cons] at hfirst
    refine ⟨{ q with first := ps.head?, last := if q.first = q.last then none else q.last }, ?_,
      ps, hnodup, rfl, ?_, hl⟩
    · rw [LinkedQueue.poll, hfirst, Option.bind_some, hp]
      rfl
    simp only
    rw [hfirst, hlast]
    cases ps with
    | nil => exact if_pos rfl
    | cons r ps =>
      rw [List.getLast?_cons_cons, if_neg]
      intro heq
      exact hpmem (List.mem_of_getLast? heq.symm)

/-- Offering appends. -/
theorem Holds.offer (h : q.Holds l) (a : α) : ∃ q', q.offer a = some q' ∧ q'.Holds (l ++ [a]) := by
  obtain ⟨ps, hnodup, hfirst, hlast, hlinked⟩ := h
  have hlt := hlinked.lt
  unfold LinkedQueue.offer
  rcases List.eq_nil_or_concat ps with rfl | ⟨ps, z, rfl⟩
  · obtain rfl := hlinked
    refine ⟨_, if_pos (decide_eq_true hfirst), [q.nodes.length], List.nodup_singleton _, rfl, rfl,
      a, [], rfl, ?_, rfl⟩
    exact List.getElem?_concat_length
  · rw [List.concat_eq_append] at hnodup hfirst hlast hlinked hlt
    have hne : ¬q.isEmpty = true := by
      unfold isEmpty
      rw [hfirst, decide_eq_true_iff, List.head?_eq_none_iff]
      exact List.append_ne_nil_of_right_ne_nil ps (List.cons_ne_nil z [])
    have hz : z < q.nodes.length := hlt z (List.mem_append_right ps List.mem_cons_self)
    have hzps : z ∉ ps := fun hmem =>
      (List.nodup_append.mp hnodup).2.2 z hmem z List.mem_cons_self rfl
    rw [List.getLast?_concat] at hlast
    rw [if_neg hne, hlast, Option.map_some]
    refine ⟨_, rfl, ps ++ [z, q.nodes.length], ?_, ?_, ?_, hlinked.snoc ?_ ?_ ?_⟩
    · rw [List.append_cons, List.nodup_append]
      refine ⟨hnodup, List.nodup_singleton _, fun x hx y hy => ?_⟩
      obtain rfl := List.mem_singleton.mp hy
      exact Nat.ne_of_lt (hlt x hx)
    · rw [hfirst]
      cases ps <;> rfl
    · exact (List.getLast?_append_cons ps z [q.nodes.length]).symm
    · intro r hr
      have hrz : z ≠ r := fun h => hzps (h ▸ hr)
      simp only
      rw [List.getElem?_modify_ne _ _ hrz,
        List.getElem?_append_left (hlt r (List.mem_append_left [z] hr))]
    · intro node hnode
      rw [List.getElem?_modify_eq, List.getElem?_append_left hz, hnode]
      rfl
    · simp only
      rw [List.getElem?_modify_ne _ _ (Nat.ne_of_lt hz), List.getElem?_concat_length]

/-! ## The values offered so far -/

/-- The values of all nodes made, in the order in which they were offered. -/
def values (q : LinkedQueue α) : List α := q.nodes.map QueueNode.value

/-- Offering adds a value to those ever offered. -/
theorem values_offer {q' : LinkedQueue α} (h : q.offer a = some q') : q'.values = q.values ++ [a] := by
  have hmodify : ∀ (nodes : List (QueueNode α)) z (next : Option Nat),
      (nodes.modify z fun node => { node with next := next }).map QueueNode.value =
        nodes.map QueueNode.value := by
    intro nodes z next
    apply List.ext_getElem?
    intro i
    rw [List.getElem?_map, List.getElem?_modify, List.getElem?_map]
    cases nodes[i]? with
    | none => rfl
    | some node =>
      simp only [Option.map_eq_map, Option.map_some]
      split <;> rfl
  unfold LinkedQueue.offer at h
  split at h
  · cases h
    exact List.map_append
  · obtain ⟨z, -, rfl⟩ := Option.map_eq_some_iff.mp h
    exact (hmodify _ z _).trans List.map_append

/-- Polling changes nothing of what was ever offered. -/
theorem values_poll {q' : LinkedQueue α} (h : q.poll = some (a, q')) : q'.values = q.values := by
  obtain ⟨p, -, hp⟩ := Option.bind_eq_some_iff.mp h
  obtain ⟨node, -, hnode⟩ := Option.map_eq_some_iff.mp hp
  cases hnode
  rfl

end LinkedQueue
