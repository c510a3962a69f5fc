import Mathlib.Tactic.Common


/-! Singly linked chains over a map of next pointers.

A null pointer is `none`. Searches carry the predecessor, since the edits that
follow them write its link, and stop unanswered when the fuel ends first.
-/

set_option autoImplicit false

namespace RosKernel.Library

open List Option

variable {α : Type}

/-- The chain linked from `head` on visits exactly `nodes` and then ends. -/
def Chain (next : α → Option α) : Option α → List α → Prop
  | head, [] => head = none
  | head, node :: rest => head = some node ∧ Chain next (next node) rest

/-- `while (cur && !stop(cur)) { prev = cur; cur = cur->next; }` -/
def seek (next : α → Option α) (stop : α → Bool) :
    Nat → Option α → Option α → Option (Option α × Option α)
  | _, prev, none => some (prev, none)
  | 0, prev, some node => if stop node then some (prev, some node) else none
  | fuel + 1, prev, some node =>
    if stop node then some (prev, some node) else seek next stop fuel (some node) (next node)

section

variable {next : α → Option α} {head : Option α}

theorem Chain.head_eq {nodes : List α} (chain : Chain next head nodes) : head = nodes.head? := by
  cases nodes with
  | nil => exact chain
  | cons node rest => exact chain.1

theorem Chain.suffix {pre after : List α} (chain : Chain next head (pre ++ after)) :
    Chain next after.head? after := by
  induction pre generalizing head with
  | nil =>
    have eq := Chain.head_eq chain
    rw [nil_append] at chain eq
    rwa [← eq]
  | cons node rest ih => exact ih chain.2

theorem Chain.next_eq {pre after : List α} {node : α}
    (chain : Chain next head (pre ++ node :: after)) : next node = after.head? :=
  (Chain.suffix chain).2.head_eq

section

variable {nodes : List α} (chain : Chain next head nodes)
include chain

theorem Chain.congr {other : α → Option α} (agree : ∀ node ∈ nodes, other node = next node) : Chain other head nodes := by
  induction nodes generalizing head with
  | nil => exact chain
  | cons node rest ih =>
    refine ⟨chain.1, ?_⟩
    rw [agree node (.head _)]
    exact ih chain.2 fun other mem => agree other (.tail _ mem)

theorem Chain.unique {others : List α} (other : Chain next head others) : nodes = others := by
  induction nodes generalizing head others with
  | nil =>
    cases others with
    | nil => rfl
    | cons node rest => exact nomatch chain.symm.trans other.1
  | cons node rest ih =>
    cases others with
    | nil => exact nomatch chain.1.symm.trans other
    | cons snd tail =>
      obtain rfl : node = snd := some.inj (chain.1.symm.trans other.1)
      rw [ih chain.2 other.2]

theorem Chain.nodup : nodes.Nodup := by
  induction nodes generalizing head with
  | nil => exact nodup_nil
  | cons node rest ih =>
    refine nodup_cons.mpr ⟨fun again => ?_, ih chain.2⟩
    obtain ⟨pre, after, split⟩ := append_of_mem again
    have whole : Chain next (some node) (node :: rest) := ⟨rfl, chain.2⟩
    have tail : Chain next (some node) (node :: after) := Chain.suffix (split ▸ chain.2)
    -- the chain from a node on is determined, so no node comes up again behind itself
    have eq := congrArg List.length (whole.unique tail)
    have longer := congrArg List.length split
    simp only [length_cons, length_append] at eq longer
    omega

end

theorem Chain.snoc {other : α → Option α} {pre : List α} {last node : α} (chain : Chain next head (pre ++ [last]))
    (eq : ∀ node ∈ pre, other node = next node) (link : other last = some node) (ends : other node = none) :
    Chain other head (pre ++ [last, node]) := by
  induction pre generalizing head with
  | nil => exact ⟨chain.1, link, ends⟩
  | cons first rest ih =>
    refine ⟨chain.1, ?_⟩
    rw [eq first (.head _)]
    exact ih chain.2 fun node mem => eq node (.tail _ mem)

theorem exists_halt (stop : α → Bool) (nodes : List α) : ∃ pre after, nodes = pre ++ after ∧
    (∀ node ∈ pre, stop node = false) ∧ ∀ node, after.head? = some node → stop node = true := by
  induction nodes with
  | nil => exact ⟨[], [], rfl, forall_mem_nil _, fun _ first => nomatch first⟩
  | cons node rest ih =>
    cases h : stop node with
    | true =>
      refine ⟨[], node :: rest, rfl, forall_mem_nil _, ?_⟩
      intro first isFirst
      rw [← some.inj isFirst]
      exact h
    | false =>
      obtain ⟨pre, after, rfl, pass, halt⟩ := ih
      exact ⟨node :: pre, after, rfl, forall_mem_cons.mpr ⟨h, pass⟩, halt⟩

theorem seek_eq {stop : α → Bool} {pre after : List α} {fuel : Nat} (prev : Option α)
    (chain : Chain next head (pre ++ after)) (pass : ∀ node ∈ pre, stop node = false)
    (halt : ∀ node, after.head? = some node → stop node = true) (enough : pre.length ≤ fuel) :
    seek next stop fuel prev head = some (pre.getLast?.or prev, after.head?) := by
  induction pre generalizing fuel prev head with
  | nil =>
    rw [Chain.head_eq chain, nil_append]
    cases after with
    | nil => cases fuel <;> rfl
    | cons node rest => cases fuel <;> simp [seek, halt node rfl]
  | cons node rest ih =>
    rw [Chain.head_eq chain]
    cases fuel with
    | zero => exact absurd enough (Nat.not_succ_le_zero _)
    | succ fuel =>
      have moved := ih (some node) chain.2
        (fun other mem => pass other (.tail _ mem)) (Nat.le_of_succ_le_succ enough)
      simp only [cons_append, head?_cons, seek, pass node (.head _), moved]
      cases rest with
      | nil => rfl
      | cons snd rest => simp [getLast?_cons]

end

section

variable [DecidableEq α] {next : α → Option α} {head : Option α}

/-- The next pointers after `if (prev) prev->next = target; else head = target;`. -/
def relinkNext (next : α → Option α) (prev target : Option α) : α → Option α :=
  match prev with
  | none => next
  | some node => Function.update next node target

/-- The head after the same statement. -/
def relinkHead (head prev target : Option α) : Option α :=
  match prev with
  | none => target
  | some _ => head

theorem relinkNext_of_ne {prev target : Option α} {node : α} (other : prev ≠ some node) :
    relinkNext next prev target node = next node := by
  cases prev with
  | none => rfl
  | some last =>
    apply Function.update_of_ne
    intro eq
    exact other (congrArg some eq.symm)

theorem Chain.relink {pre old new : List α} {target : Option α}
    (chain : Chain next head (pre ++ old)) (dist : pre.Nodup)
    (rest : Chain next target new) (ne : ∀ node ∈ pre, node ∉ new) :
    Chain (relinkNext next pre.getLast? target) (relinkHead head pre.getLast? target)
      (pre ++ new) := by
  induction pre generalizing head with
  | nil => exact rest
  | cons node tail ih =>
    cases tail with
    | nil =>
      refine ⟨chain.1, ?_⟩
      change Chain (Function.update next node target) (Function.update next node target node) new
      rw [Function.update_self]
      refine rest.congr fun other mem => Function.update_of_ne ?_ _ _
      intro eq
      exact ne node (.head _) (eq ▸ mem)
    | cons snd tail =>
      have tailed := ih chain.2 (nodup_cons.mp dist).2
        fun other mem => ne other (.tail _ mem)
      obtain ⟨last, isLast⟩ : ∃ last, (snd :: tail).getLast? = some last :=
        ⟨_, getLast?_eq_some_getLast (by simp)⟩
      have sameLast : (node :: snd :: tail).getLast? = some last := by
        rw [getLast?_cons_cons, isLast]
      rw [isLast] at tailed
      rw [sameLast]
      refine ⟨chain.1, ?_⟩
      have notLast : some last ≠ some node := by
        intro eq
        have mem := mem_of_getLast? isLast
        rw [some.inj eq] at mem
        exact (nodup_cons.mp dist).1 mem
      rw [relinkNext_of_ne notLast]
      exact tailed

end

section

variable {next other : α → Option α} {start : Option α} {first t : α} {members : α → Prop}

/-- The chain from `start` on ends and visits each member once and nothing else. -/
def Visits (next : α → Option α) (start : Option α) (members : α → Prop) : Prop :=
  ∃ nodes, Chain next start nodes ∧ nodes.Nodup ∧ ∀ node, node ∈ nodes ↔ members node

theorem Visits.congr {others : α → Prop} (visits : Visits next start members)
    (links : ∀ node, members node → other node = next node) (eq : ∀ node, others node ↔ members node) :
    Visits other start others := by
  obtain ⟨nodes, chain, nodup, exact⟩ := visits
  exact ⟨nodes, chain.congr fun node mem => links node ((exact node).mp mem), nodup,
    fun node => (exact node).trans (eq node).symm⟩

theorem Visits.single (alone : next first = none) : Visits next (some first) (· = first) :=
  ⟨[first], ⟨rfl, alone⟩, pairwise_singleton .., fun _ => mem_singleton⟩

theorem Visits.first_mem (visits : Visits next (some first) members) : members first := by
  obtain ⟨nodes, chain, _, exact⟩ := visits
  apply (exact first).mp
  cases nodes with
  | nil => exact nomatch chain
  | cons node rest => exact some.inj chain.1 ▸ .head _

section

variable {node : α} (visits : Visits next start members) (mem : members node) (link : next node = some t)
include visits mem link

theorem Visits.next_mem : members t := by
  obtain ⟨nodes, chain, _, exact⟩ := visits
  obtain ⟨pre, after, rfl⟩ := append_of_mem ((exact node).mpr mem)
  apply (exact t).mp
  cases after with
  | nil => exact nomatch link.symm.trans (Chain.next_eq chain)
  | cons snd rest =>
    obtain rfl : t = snd := some.inj (link.symm.trans (Chain.next_eq chain))
    simp

theorem Visits.next_ne : node ≠ t := by
  obtain ⟨nodes, chain, nodup, exact⟩ := visits
  obtain ⟨pre, after, rfl⟩ := append_of_mem ((exact node).mpr mem)
  rintro rfl
  cases after with
  | nil => exact nomatch link.symm.trans (Chain.next_eq chain)
  | cons snd rest =>
    obtain rfl : node = snd := some.inj (link.symm.trans (Chain.next_eq chain))
    exact (nodup_cons.mp (nodup_append.mp nodup).2.1).1 (.head _)

end

theorem Visits.insert (visits : Visits next (some first) members) (fresh : ¬members t)
    (front : other first = some t) (link : other t = next first)
    (rest : ∀ node, members node → node ≠ first → other node = next node) :
    Visits other (some first) fun node => members node ∨ node = t := by
  obtain ⟨nodes, chain, nodup, exact⟩ := visits
  cases nodes with
  | nil => exact nomatch chain
  | cons node tail =>
    obtain ⟨eq, chain⟩ := chain
    obtain rfl : first = node := some.inj eq
    obtain ⟨notTail, nodup⟩ := nodup_cons.mp nodup
    have absent : t ∉ first :: tail := fun mem => fresh ((exact t).mp mem)
    have tailed : Chain other (next first) tail := chain.congr fun node mem =>
      rest node ((exact node).mp (.tail _ mem)) fun isFirst => notTail (isFirst ▸ mem)
    refine ⟨first :: t :: tail, ⟨rfl, front, link ▸ tailed⟩, ?_, ?_⟩
    · grind
    · intro node
      change node ∈ first :: t :: tail ↔ members node ∨ node = t
      rw [← exact node]
      simp only [mem_cons]
      tauto

theorem Visits.remove [DecidableEq α] (visits : Visits next (some first) members) {prev : α} (pre : members prev)
    (link : next prev = some t) (bypass : other prev = next t)
    (rest : ∀ node, members node → node ≠ prev → node ≠ t → other node = next node) :
    Visits other (some first) fun node => members node ∧ node ≠ t := by
  obtain ⟨nodes, chain, nodup, exact⟩ := visits
  obtain ⟨front, back, rfl⟩ := append_of_mem ((exact prev).mpr pre)
  cases back with
  | nil => exact nomatch link.symm.trans (Chain.next_eq chain)
  | cons snd back =>
    obtain rfl : t = snd := some.inj (link.symm.trans (Chain.next_eq chain))
    have split : front ++ prev :: t :: back = (front ++ [prev]) ++ t :: back := by simp
    rw [split] at chain nodup
    obtain ⟨frontNodup, tailNodup, ne⟩ := nodup_append.mp nodup
    obtain ⟨notBack, backNodup⟩ := nodup_cons.mp tailNodup
    have linked := chain.relink frontNodup (Chain.suffix chain).2 fun node isFront isBack =>
      ne node isFront node (.tail _ isBack) rfl
    have isMember : ∀ node ∈ (front ++ [prev]) ++ back, members node ∧ node ≠ t := by
      intro node mem
      rcases mem_append.mp mem with isFront | isBack
      · grind
      · grind
    rw [getLast?_append, getLast?_singleton, Option.some_or] at linked
    refine ⟨(front ++ [prev]) ++ back, linked.congr ?_, ?_, ?_⟩
    · intro node mem
      by_cases isPrev : node = prev
      · rw [isPrev]
        exact bypass.trans (Function.update_self prev (next t) next).symm
      · rw [relinkNext_of_ne fun eq => isPrev (some.inj eq).symm]
        exact rest node (isMember node mem).1 isPrev (isMember node mem).2
    · grind
    · intro node
      refine ⟨isMember node, ?_⟩
      rintro ⟨mem, dist⟩
      have hin := (exact node).mpr mem
      simp only [mem_append, mem_cons] at hin ⊢
      tauto

end

end RosKernel.Library
