import CcUtils.Queue.Model

/-!
# The lock-free queue under every schedule

Producers and one consumer take turns in any order, one access to shared memory a turn. A producer
pushes the nodes of its list one after another. The consumer runs `test_cas_queue_consume` without
its counter: it pops, walks the batch it got, and pops again.

Three histories are recorded beside the program's state: the nodes in the order in which `last` was
swung to them, the batches walked to their ends, and the nodes of the present batch already walked.

## What is proved

* `Inv.push`, `Inv.consume` — a turn of a producer, and one of the consumer, keep the invariant.
* `walk_arrives` — a walk ends at `*last` once the consumer has had turns enough.
* `run_safe` — no walk meets NULL, and the batches are what was pushed, in order.
-/

namespace CcUtils.Queue

open CcUtils.Lib

variable {ι ν : Type} [DecidableEq ι] [DecidableEq ν]

/-! ### The system -/

/-- A producer: the nodes it has still to push, and where it is in pushing the first of them. -/
structure Producer (ν : Type) where
  todo : List ν
  pc : CasPush ν

/-- The consumer: in a call of the pop, or in the loop over a batch. -/
inductive Consumer (ν : Type) where
  | pop (pc : CasPop ν)
  | walk (next : Option ν) (last : Option (Ref ν))
  | crashed

/-- The shared memory, the threads, and the histories. -/
structure State (ι ν : Type) where
  queue : CasQueue ν
  producer : ι → Producer ν
  consumer : Consumer ν
  /-- The nodes in the order of the successful swaps of `queue->last` to them. -/
  swung : List ν
  /-- The batches walked to their ends. -/
  batches : List (List ν)
  /-- The nodes of the present batch already walked. -/
  walked : List ν

/-- A turn of a producer. Its push returns with the successful swap of `queue->last`. -/
def State.push (s : State ι ν) (p : ι) : State ι ν :=
  match (s.producer p).todo with
  | [] => s
  | n :: rest =>
    match (s.producer p).pc.step s.queue n with
    | (m, some pc) =>
      { s with queue := m, producer := Function.update s.producer p ⟨n :: rest, pc⟩ }
    | (m, none) =>
      { s with
        queue := m
        producer := Function.update s.producer p ⟨rest, .load⟩
        swung := s.swung ++ [n] }

/-- A turn of the consumer. -/
def State.consume (s : State ι ν) : State ι ν :=
  match s.consumer with
  | .pop pc =>
    match pc.step s.queue with
    | (m, .inl pc) => { s with queue := m, consumer := .pop pc }
    | (m, .inr r) =>
      { s with queue := m, consumer := if r.ret = none then .pop .check else .walk r.ret r.last }
  | .walk next last =>
    match walkStep s.queue.next next last with
    | .error _ => { s with consumer := .crashed }
    | .ok (node, none) =>
      { s with
        consumer := .pop .check
        batches := s.batches ++ [s.walked ++ [node]]
        walked := [] }
    | .ok (node, some next) =>
      { s with consumer := .walk next last, walked := s.walked ++ [node] }
  | .crashed => s

/-- Whose turn it is. -/
inductive Actor (ι : Type) where
  | producer (p : ι)
  | consumer
  deriving DecidableEq

/-- One turn. -/
def State.step (s : State ι ν) : Actor ι → State ι ν
  | .producer p => s.push p
  | .consumer => s.consume

/-- A run under a schedule. -/
def run (s : State ι ν) (sched : List (Actor ι)) : State ι ν := sched.foldl State.step s

/-- The threads start after `cas_queue_init`. -/
def start (m : CasQueue ν) (todo : ι → List ν) : State ι ν where
  queue := casQueueInit m
  producer p := ⟨todo p, .load⟩
  consumer := .pop .check
  swung := []
  batches := []
  walked := []

/-! ### What is wanted -/

/-- The nodes between the consumer and `*last`: following `next` leads through them, and the last of
them is `*last`. -/
def Consumer.Rest (next : Ref ν → Option ν) : Consumer ν → List ν → Prop
  | .pop _, rest => rest = []
  | .walk n last, r :: q => n = some r ∧ Linked next (.node r) q ∧ last = some (endOf (.node r) q)
  | .walk _ _, [] => False
  | .crashed, _ => False

/-- Is the consumer inside a call of `cas_queue_pop`? -/
def Consumer.inPop : Consumer ν → Bool
  | .pop .check => false
  | .pop _ => true
  | _ => false

/-- All nodes given out so far: the batches walked, and the present one with the nodes still
ahead. -/
def State.returned (s : State ι ν) (rest : List ν) : List ν :=
  s.batches.flatten ++ s.walked ++ rest

/-- What the queue is for; `rest` are the nodes between the consumer and `*last`. -/
structure Safe (todo : ι → List ν) (s : State ι ν) (rest : List ν) : Prop where
  /-- Only the producers' nodes come in, -/
  known : ∀ n ∈ s.swung, ∃ p, n ∈ todo p
  /-- each once, -/
  distinct : s.swung.Nodup
  /-- and those of one producer are the ones it is done with, in its order. -/
  order : ∀ p, todo p = s.swung.filter (· ∈ todo p) ++ (s.producer p).todo
  /-- The way to `*last` is open. -/
  way : s.consumer.Rest s.queue.next rest
  /-- What was given out is a prefix of what came in, -/
  batches : s.returned rest <+: s.swung
  /-- so of each producer it is what the producer pushed first, -/
  inOrder : ∀ p, (s.returned rest).filter (· ∈ todo p) <+: todo p
  /-- and it is all that came in when the queue is empty. -/
  all : s.consumer.inPop = false → s.queue.last = .head → s.returned rest = s.swung

/-! ### The invariant -/

/-- What a pop has read: a batch `b`, from its first node to its last. -/
structure Batch (b : List ν) (ret : Option ν) (oldNode : Ref ν) : Prop where
  ne : b ≠ []
  ret : ret = b.head?
  oldNode : oldNode = endOf .head b

/-- What the local variables of a pop say about the nodes `q` that came in and were not yet given
out. -/
def CasPop.Saw (q : List ν) : CasPop ν → Prop
  | .check => True
  | .first => q ≠ []
  | .load ret => q ≠ [] ∧ ret = q.head?
  | .swap ret oldNode => ∃ b q', q = b ++ q' ∧ Batch b ret oldNode
  | .clear ret oldNode => Batch q ret oldNode
  | .readNext ret oldNode => ∃ b q', q = b ++ q' ∧ Batch b ret oldNode ∧ q' ≠ []
  | .relink ret oldNode v =>
    ∃ b q', q = b ++ q' ∧ Batch b ret oldNode ∧ q' ≠ [] ∧ v = q'.head?

def Consumer.Saw (q : List ν) : Consumer ν → Prop
  | .pop pc => pc.Saw q
  | _ => True

/-- Where `queue->last` points: at the end of the list, but a pop that has taken the list off has
yet to clear the header. -/
def Consumer.lastOf (q : List ν) : Consumer ν → Ref ν
  | .pop (.clear _ _) => .head
  | _ => endOf .head q

/-- A cell of the queue, now or earlier. -/
def State.Cell (s : State ι ν) (a : Ref ν) : Prop := a = .head ∨ ∃ n ∈ s.swung, a = .node n

/-- The invariant of the producers. -/
structure Producers (todo : ι → List ν) (s : State ι ν) : Prop where
  known : ∀ n ∈ s.swung, ∃ p, n ∈ todo p
  distinct : s.swung.Nodup
  order : ∀ p, todo p = s.swung.filter (· ∈ todo p) ++ (s.producer p).todo
  /-- Nothing is linked behind a node not yet pushed. -/
  null : ∀ p, ∀ n ∈ (s.producer p).todo, s.queue.next (.node n) = none
  /-- A producer links behind cells of the queue, though perhaps not of its present list. -/
  link : ∀ p oldNode, (s.producer p).pc = .link oldNode → s.Cell oldNode
  /-- A node it has linked stays there; behind the header, `last` stays too. -/
  swing : ∀ p oldNode, (s.producer p).pc = .swing oldNode →
    s.queue.next oldNode = (s.producer p).todo.head? ∧ s.queue.next oldNode ≠ none ∧
      (oldNode = .head → s.queue.last = .head)

/-- The invariant of the list: `q` came in and was not yet given out. -/
structure Listed (s : State ι ν) (rest q : List ν) : Prop where
  split : s.swung = s.returned rest ++ q
  rest : s.consumer.Rest s.queue.next rest
  linked : Linked s.queue.next .head q
  last : s.queue.last = s.consumer.lastOf q
  saw : s.consumer.Saw q

/-- The invariant, with the nodes between the consumer and `*last`. -/
structure Inv (todo : ι → List ν) (s : State ι ν) (rest : List ν) : Prop where
  producers : Producers todo s
  listed : ∃ q, Listed s rest q

/-! ### A producer's turn -/

section Producers

variable {todo : ι → List ν} {s : State ι ν}

omit [DecidableEq ι] in
/-- A node still to be pushed has not come in. -/
theorem Producers.notMem (h : Producers todo s) (hnd : ∀ p, (todo p).Nodup) {p : ι} {n : ν}
    (hn : n ∈ (s.producer p).todo) : n ∉ s.swung := by
  intro hs
  have ho := h.order p
  have hd := hnd p
  have hmem : n ∈ todo p := by
    rw [ho]
    exact List.mem_append_right _ hn
  rw [ho, List.nodup_append] at hd
  exact hd.2.2 n (List.mem_filter.mpr ⟨hs, decide_eq_true hmem⟩) n hn rfl

omit [DecidableEq ι] in
theorem Producers.mem_todo (h : Producers todo s) {p : ι} {n : ν}
    (hn : n ∈ (s.producer p).todo) : n ∈ todo p := by
  rw [h.order p]
  exact List.mem_append_right _ hn

omit [DecidableEq ι] in
/-- While the list has a node in it, no producer has just linked behind the header. -/
theorem Producers.not_swing_head (h : Producers todo s) (hnd : ∀ p, (todo p).Nodup) {q : List ν}
    (hl : Linked s.queue.next .head q) (hq : q ≠ []) (hsub : ∀ n ∈ q, n ∈ s.swung) (p : ι) :
    (s.producer p).pc ≠ .swing .head := by
  intro hp
  obtain ⟨hn, -, -⟩ := h.swing p .head hp
  cases q with
  | nil => exact hq rfl
  | cons n q =>
    rw [hl.1] at hn
    have hmem : n ∈ (s.producer p).todo := List.mem_of_head? hn.symm
    exact h.notMem hnd hmem (hsub n List.mem_cons_self)

omit [DecidableEq ι] in
/-- The threads see no more of a step than the `next` fields and `last`. -/
theorem Producers.congr (h : Producers todo s) {t : State ι ν} (hs : t.swung = s.swung)
    (hp : t.producer = s.producer)
    (hnode : ∀ n, t.queue.next (.node n) = s.queue.next (.node n))
    (hhead : ∀ p, (s.producer p).pc = .swing .head → t.queue = s.queue) : Producers todo t := by
  refine ⟨hs ▸ h.known, hs ▸ h.distinct, ?_, ?_, ?_, ?_⟩
  · intro p
    rw [hs, hp]
    exact h.order p
  · intro p n hn
    rw [hnode]
    rw [hp] at hn
    exact h.null p n hn
  · intro p oldNode hpc
    rw [hp] at hpc
    rw [State.Cell, hs]
    exact h.link p oldNode hpc
  · intro p oldNode hpc
    rw [hp] at hpc ⊢
    cases oldNode with
    | head =>
      rw [hhead p hpc]
      exact h.swing p .head hpc
    | node n =>
      obtain ⟨h1, h2, -⟩ := h.swing p (.node n) hpc
      rw [hnode]
      exact ⟨h1, h2, fun he => absurd he (node_ne_head n)⟩

/-- A producer moves on without a write. -/
theorem Producers.goto (h : Producers todo s) (p : ι) {pc : CasPush ν}
    (hlink : ∀ oldNode, pc = .link oldNode → s.Cell oldNode)
    (hswing : ∀ oldNode, pc ≠ .swing oldNode) :
    Producers todo { s with
      producer := Function.update s.producer p ⟨(s.producer p).todo, pc⟩ } := by
  have htodo : ∀ p', (Function.update s.producer p ⟨(s.producer p).todo, pc⟩ p').todo =
      (s.producer p').todo := by
    intro p'
    by_cases hp : p' = p
    · subst hp
      rw [Function.update_self]
    · rw [Function.update_of_ne hp]
  refine ⟨h.known, h.distinct, ?_, ?_, ?_, ?_⟩
  · intro p'
    rw [htodo]
    exact h.order p'
  · intro p' n hn
    rw [htodo] at hn
    exact h.null p' n hn
  · intro p' oldNode hpc
    by_cases hp : p' = p
    · subst hp
      simp only [Function.update_self] at hpc
      exact hlink oldNode hpc
    · simp only [Function.update_of_ne hp] at hpc
      exact h.link p' oldNode hpc
  · intro p' oldNode hpc
    by_cases hp : p' = p
    · subst hp
      simp only [Function.update_self] at hpc
      exact absurd hpc (hswing oldNode)
    · simp only [Function.update_of_ne hp] at hpc ⊢
      exact h.swing p' oldNode hpc

/-- A producer links its node. -/
theorem Producers.linkNode (h : Producers todo s) (hnd : ∀ p, (todo p).Nodup) {p : ι} {n : ν}
    {rest : List ν} {oldNode : Ref ν} (htodo : (s.producer p).todo = n :: rest)
    (hpc : (s.producer p).pc = .link oldNode) (hnull : s.queue.next oldNode = none)
    (hlast : oldNode = .head → s.queue.last = .head) :
    Producers todo { s with
      queue := s.queue.setNext oldNode (some n)
      producer := Function.update s.producer p ⟨n :: rest, .swing oldNode⟩ } := by
  have htodo' : ∀ p', (Function.update s.producer p ⟨n :: rest, .swing oldNode⟩ p').todo =
      (s.producer p').todo := by
    intro p'
    by_cases hp : p' = p
    · subst hp
      rw [Function.update_self, htodo]
    · rw [Function.update_of_ne hp]
  refine ⟨h.known, h.distinct, ?_, ?_, ?_, ?_⟩
  · intro p'
    rw [htodo']
    exact h.order p'
  · intro p' k hk
    rw [htodo'] at hk
    have hne : Ref.node k ≠ oldNode := by
      rcases h.link p oldNode hpc with rfl | ⟨m, hm, rfl⟩
      · exact node_ne_head k
      · rintro ⟨⟩
        exact h.notMem hnd hk hm
    rw [CasQueue.setNext_next, Function.update_of_ne hne]
    exact h.null p' k hk
  · intro p' old' hpc'
    by_cases hp : p' = p
    · subst hp
      simp only [Function.update_self] at hpc'
      cases hpc'
    · simp only [Function.update_of_ne hp] at hpc'
      exact h.link p' old' hpc'
  · intro p' old' hpc'
    by_cases hp : p' = p
    · subst hp
      simp only [Function.update_self] at hpc' ⊢
      cases hpc'
      rw [CasQueue.setNext_next, Function.update_self]
      exact ⟨rfl, Option.some_ne_none n, hlast⟩
    · simp only [Function.update_of_ne hp] at hpc' ⊢
      obtain ⟨h1, h2, h3⟩ := h.swing p' old' hpc'
      have hne : old' ≠ oldNode := by
        rintro rfl
        exact h2 hnull
      rw [CasQueue.setNext_next, Function.update_of_ne hne]
      exact ⟨h1, h2, h3⟩

/-- A producer swings `last` to its node and is done with it. -/
theorem Producers.finish (h : Producers todo s) (hnd : ∀ p, (todo p).Nodup)
    (hdj : ∀ p p', p ≠ p' → (todo p).Disjoint (todo p')) {p : ι} {n : ν} {rest : List ν}
    {oldNode : Ref ν} (htodo : (s.producer p).todo = n :: rest)
    (hpc : (s.producer p).pc = .swing oldNode) (hlast : s.queue.last = oldNode) :
    Producers todo { s with
      queue := { s.queue with last := .node n }
      producer := Function.update s.producer p ⟨rest, .load⟩
      swung := s.swung ++ [n] } := by
  have hn : n ∈ (s.producer p).todo := htodo ▸ List.mem_cons_self
  have hin : n ∈ todo p := h.mem_todo hn
  have hold : s.queue.next oldNode = some n := by
    rw [(h.swing p oldNode hpc).1, htodo, List.head?_cons]
  refine ⟨?_, ?_, ?_, ?_, ?_, ?_⟩
  · intro k hk
    rcases List.mem_append.mp hk with hk | hk
    · exact h.known k hk
    · exact ⟨p, (List.mem_singleton.mp hk) ▸ hin⟩
  · refine List.nodup_append.mpr ⟨h.distinct, List.nodup_cons.mpr ⟨List.not_mem_nil, List.nodup_nil⟩, ?_⟩
    intro a ha b hb
    obtain rfl := List.mem_singleton.mp hb
    rintro rfl
    exact h.notMem hnd hn ha
  · intro p'
    rw [List.filter_append]
    by_cases hp : p' = p
    · subst hp
      have ho := h.order p'
      rw [htodo] at ho
      simp only [Function.update_self]
      rw [List.filter_singleton, decide_eq_true hin, List.append_assoc]
      exact ho
    · have hnot : n ∉ todo p' := fun hm => hdj p' p hp hm hin
      simp only [Function.update_of_ne hp]
      rw [List.filter_singleton, decide_eq_false hnot]
      simpa using h.order p'
  · intro p' k hk
    by_cases hp : p' = p
    · subst hp
      simp only [Function.update_self] at hk
      exact h.null p' k (htodo ▸ List.mem_cons_of_mem n hk)
    · simp only [Function.update_of_ne hp] at hk
      exact h.null p' k hk
  · intro p' old' hpc'
    by_cases hp : p' = p
    · subst hp
      simp only [Function.update_self] at hpc'
      cases hpc'
    · simp only [Function.update_of_ne hp] at hpc'
      rcases h.link p' old' hpc' with he | ⟨m, hm, he⟩
      · exact .inl he
      · exact .inr ⟨m, List.mem_append_left _ hm, he⟩
  · intro p' old' hpc'
    by_cases hp : p' = p
    · subst hp
      simp only [Function.update_self] at hpc'
      cases hpc'
    · simp only [Function.update_of_ne hp] at hpc' ⊢
      obtain ⟨h1, h2, h3⟩ := h.swing p' old' hpc'
      refine ⟨h1, h2, ?_⟩
      -- two producers cannot both have linked behind the header
      intro he
      have hsame : old' = oldNode := by rw [he, ← hlast, h3 he]
      rw [hsame, hold] at h1
      have hin' : n ∈ todo p' := h.mem_todo (List.mem_of_head? h1.symm)
      exact absurd hin (hdj p' p hp hin')

end Producers

/-! ### What the consumer knows survives a producer's turn -/

omit [DecidableEq ν] in
theorem Consumer.Rest.mono {next next' : Ref ν → Option ν}
    (h : ∀ r q, Linked next (.node r) q → Linked next' (.node r) q) {c : Consumer ν}
    {rest : List ν} (hr : c.Rest next rest) : c.Rest next' rest := by
  cases c with
  | pop pc => exact hr
  | crashed => exact hr
  | walk n last =>
    cases rest with
    | nil => exact hr
    | cons r q => exact ⟨hr.1, h r q hr.2.1, hr.2.2⟩

omit [DecidableEq ν] in
/-- A node more at the end of the list; the pop that took the list off does not see it. -/
theorem Consumer.Saw.concat {c : Consumer ν} {q : List ν} (h : c.Saw q) (n : ν)
    (hc : ∀ ret oldNode, c ≠ .pop (.clear ret oldNode)) : c.Saw (q ++ [n]) := by
  cases c with
  | walk next last => trivial
  | crashed => trivial
  | pop pc =>
    cases pc with
    | check => trivial
    | first => exact List.append_ne_nil_of_left_ne_nil h [n]
    | load ret =>
      exact ⟨List.append_ne_nil_of_left_ne_nil h.1 [n], h.2.trans (List.head?_append_of_ne_nil q h.1).symm⟩
    | swap ret oldNode =>
      obtain ⟨b, q', rfl, hb⟩ := h
      exact ⟨b, q' ++ [n], List.append_assoc b q' [n], hb⟩
    | clear ret oldNode => exact absurd rfl (hc ret oldNode)
    | readNext ret oldNode =>
      obtain ⟨b, q', rfl, hb, hq⟩ := h
      exact ⟨b, q' ++ [n], List.append_assoc b q' [n], hb, List.append_ne_nil_of_left_ne_nil hq [n]⟩
    | relink ret oldNode v =>
      obtain ⟨b, q', rfl, hb, hq, hv⟩ := h
      refine ⟨b, q' ++ [n], List.append_assoc b q' [n], hb,
        List.append_ne_nil_of_left_ne_nil hq [n], ?_⟩
      rw [hv, List.head?_append_of_ne_nil q' hq]

section Listed

variable {todo : ι → List ν} {s : State ι ν} {rest q : List ν}

omit [DecidableEq ι] [DecidableEq ν] in
/-- A header without a successor is where `last` points. -/
theorem Listed.last_head (h : Listed s rest q) (hn : s.queue.next .head = none) :
    s.queue.last = .head := by
  have hq := h.linked.eq_nil hn
  subst hq
  rw [h.last]
  unfold Consumer.lastOf
  split <;> rfl

omit [DecidableEq ι] [DecidableEq ν] in
/-- `last` points at a cell of the queue. -/
theorem Listed.last_cell (h : Listed s rest q) : s.Cell s.queue.last := by
  rw [h.last]
  unfold Consumer.lastOf
  split
  · exact .inl rfl
  · by_cases hq : q = []
    · subst hq
      exact .inl rfl
    · obtain ⟨n, hn, he⟩ := endOf_mem .head hq
      refine .inr ⟨n, ?_, he⟩
      rw [h.split]
      exact List.mem_append_right _ hn

omit [DecidableEq ι] in
/-- While the pop that took the list off has yet to clear the header, no producer gets to swing. -/
theorem Listed.not_clear (h : Listed s rest q) (hp : Producers todo s)
    (hnd : ∀ p, (todo p).Nodup) {p : ι} (hpc : (s.producer p).pc = .swing s.queue.last)
    (ret : Option ν) (oldNode : Ref ν) : s.consumer ≠ .pop (.clear ret oldNode) := by
  intro hc
  have hlast := h.last
  have hsaw := h.saw
  rw [hc] at hlast hsaw
  have hsub : ∀ n ∈ q, n ∈ s.swung := by
    intro n hn
    rw [h.split]
    exact List.mem_append_right _ hn
  rw [show s.queue.last = .head from hlast] at hpc
  exact hp.not_swing_head hnd h.linked hsaw.ne hsub p hpc

/-- A turn of a producer keeps the invariant. -/
theorem Inv.push (h : Inv todo s rest) (hnd : ∀ p, (todo p).Nodup)
    (hdj : ∀ p p', p ≠ p' → (todo p).Disjoint (todo p')) (p : ι) :
    Inv todo (s.push p) rest := by
  obtain ⟨hp, q, hl⟩ := h
  unfold State.push
  cases htodo : (s.producer p).todo with
  | nil => exact ⟨hp, q, hl⟩
  | cons n ns =>
    have hloads : ∀ pc : CasPush ν, (∀ oldNode, pc = .link oldNode → s.Cell oldNode) →
        (∀ oldNode, pc ≠ .swing oldNode) →
        Inv todo { s with producer := Function.update s.producer p ⟨n :: ns, pc⟩ } rest := by
      intro pc hlink hswing
      have hp' := hp.goto p hlink hswing
      rw [htodo] at hp'
      exact ⟨hp', q, hl.split, hl.rest, hl.linked, hl.last, hl.saw⟩
    cases hpc : (s.producer p).pc with
    | load =>
      refine hloads (.link s.queue.last) ?_ nofun
      rintro oldNode ⟨⟩
      exact hl.last_cell
    | link oldNode =>
      simp only [CasPush.step]
      by_cases hnull : s.queue.next oldNode = none
      · rw [if_pos hnull]
        have hlast : oldNode = .head → s.queue.last = .head := by
          rintro rfl
          exact hl.last_head hnull
        refine ⟨hp.linkNode hnd htodo hpc hnull hlast, q, hl.split, ?_, ?_, hl.last, hl.saw⟩
        · exact hl.rest.mono fun r l hr => hr.write_null hnull (some n)
        · exact hl.linked.write_null hnull (some n)
      · rw [if_neg hnull]
        exact hloads .load nofun nofun
    | swing oldNode =>
      simp only [CasPush.step]
      by_cases hlast : s.queue.last = oldNode
      · rw [if_pos hlast]
        subst hlast
        have hc := hl.not_clear hp hnd hpc
        have hend : s.queue.last = endOf .head q := by
          rw [hl.last]
          unfold Consumer.lastOf
          split
          · rename_i ret oldNode he
            exact absurd he (hc ret oldNode)
          · rfl
        have hnext : s.queue.next (endOf .head q) = some n := by
          rw [← hend, (hp.swing p _ hpc).1, htodo, List.head?_cons]
        refine ⟨hp.finish hnd hdj htodo hpc rfl, q ++ [n], ?_, hl.rest,
          hl.linked.concat hnext, ?_, hl.saw.concat n hc⟩
        · rw [← List.append_assoc]
          exact congrArg (· ++ [n]) hl.split
        · change Ref.node n = s.consumer.lastOf (q ++ [n])
          unfold Consumer.lastOf
          split
          · rename_i ret oldNode he
            exact absurd he (hc ret oldNode)
          · exact (endOf_concat .head q n).symm
      · rw [if_neg hlast]
        exact hloads .load nofun nofun

/-! ### The consumer's turn -/

omit [DecidableEq ι] [DecidableEq ν] in
theorem Listed.sub (h : Listed s rest q) {n : ν} (hn : n ∈ q) : n ∈ s.swung := by
  rw [h.split]
  exact List.mem_append_right _ hn

omit [DecidableEq ι] in
theorem Listed.distinct (h : Listed s rest q) (hp : Producers todo s) :
    (s.returned rest).Nodup ∧ q.Nodup := by
  have hd := hp.distinct
  rw [h.split, List.nodup_append] at hd
  exact ⟨hd.1, hd.2.1⟩

omit [DecidableEq ι] [DecidableEq ν] in
theorem Listed.rest_pop (h : Listed s rest q) {pc : CasPop ν} (hc : s.consumer = .pop pc) :
    rest = [] := by
  have hr := h.rest
  rw [hc] at hr
  exact hr

omit [DecidableEq ι] [DecidableEq ν] in
theorem Listed.saw_pop (h : Listed s rest q) {pc : CasPop ν} (hc : s.consumer = .pop pc) :
    pc.Saw q := by
  have hs := h.saw
  rw [hc] at hs
  exact hs

omit [DecidableEq ι] [DecidableEq ν] in
theorem Listed.last_pop (h : Listed s rest q) {pc : CasPop ν} (hc : s.consumer = .pop pc) :
    s.queue.last = Consumer.lastOf q (.pop pc) := by
  rw [← hc]
  exact h.last

omit [DecidableEq ι] in
/-- The consumer reads. -/
theorem Inv.read (hp : Producers todo s) (hl : Listed s rest q) {pc pc' : CasPop ν}
    (hc : s.consumer = .pop pc) (hlast : s.queue.last = Consumer.lastOf q (.pop pc'))
    (hsaw : pc'.Saw q) : Inv todo { s with consumer := .pop pc' } rest :=
  ⟨hp.congr rfl rfl (fun _ => rfl) fun _ _ => rfl, q, hl.split, hl.rest_pop hc, hl.linked, hlast,
    hsaw⟩

omit [DecidableEq ι] in
/-- The pop takes the whole list off. -/
theorem Inv.swap (hp : Producers todo s) (hnd : ∀ p, (todo p).Nodup) (hl : Listed s rest q)
    {ret : Option ν} (hc : s.consumer = .pop (.swap ret s.queue.last)) :
    Inv todo { s with
      queue := { s.queue with last := .head }
      consumer := .pop (.clear ret s.queue.last) } rest := by
  obtain ⟨b, q', rfl, hb⟩ := hl.saw_pop hc
  have hlast : s.queue.last = endOf .head (b ++ q') := hl.last_pop hc
  -- nothing came in since `last` was read
  have hq' : q' = [] := by
    by_contra hne
    obtain ⟨n, hn, hen⟩ := endOf_mem .head hb.ne
    obtain ⟨m, hm, hem⟩ := endOf_mem (endOf .head b) hne
    have he := hb.oldNode
    rw [hlast, endOf_append, hem, hen] at he
    cases he
    exact (List.nodup_append.mp (hl.distinct hp).2).2.2 n hn n hm rfl
  subst hq'
  rw [List.append_nil] at hl
  have hhead := hp.not_swing_head hnd hl.linked hb.ne fun n hn => hl.sub hn
  exact ⟨hp.congr rfl rfl (fun _ => rfl) fun p hpc => absurd hpc (hhead p), b, hl.split,
    hl.rest_pop hc, hl.linked, rfl, hb⟩

omit [DecidableEq ι] in
/-- The pop stores to the header, and gives out what it has read; `q'` came in meanwhile. -/
theorem Inv.giveOut (hp : Producers todo s) (hnd : ∀ p, (todo p).Nodup) {b q' : List ν}
    (hl : Listed s rest (b ++ q')) {pc : CasPop ν} (hc : s.consumer = .pop pc) {ret : Option ν}
    {oldNode : Ref ν} (hb : Batch b ret oldNode) (hlast : s.queue.last = endOf .head q')  :
    ret ≠ none ∧ Inv todo { s with
      queue := s.queue.setNext .head q'.head?
      consumer := .walk ret (some oldNode) } b := by
  obtain rfl := hl.rest_pop hc
  have hhead := hp.not_swing_head hnd hl.linked (List.append_ne_nil_of_left_ne_nil hb.ne q')
    fun n hn => hl.sub hn
  obtain ⟨hlb, hlq⟩ := linked_append.mp hl.linked
  obtain ⟨hne, rfl, rfl⟩ := hb
  cases b with
  | nil => exact absurd rfl hne
  | cons r b =>
    refine ⟨Option.some_ne_none r, ?_, q', ?_, ?_, ?_, hlast, trivial⟩
    · refine hp.congr rfl rfl ?_ fun p hpc => absurd hpc (hhead p)
      intro n
      rw [CasQueue.setNext_next, Function.update_of_ne (node_ne_head n)]
    · have hs := hl.split
      simp only [State.returned, List.append_nil] at hs ⊢
      rw [hs, List.append_assoc _ (r :: b)]
    · exact ⟨rfl, hlb.2.write_head _, rfl⟩
    · cases q' with
      | nil => trivial
      | cons n q' =>
        refine ⟨?_, hlq.2.write_head _⟩
        rw [CasQueue.setNext_next, Function.update_self, List.head?_cons]

omit [DecidableEq ι] in
/-- The walk takes the next node, and with it `*last` or its successor. -/
theorem Listed.consume_walk {r : ν} {b : List ν} (hl : Listed s (r :: b) q) (hp : Producers todo s)
    {next : Option ν} {last : Option (Ref ν)} (hc : s.consumer = .walk next last) :
    (b = [] ∧ s.consume = { s with
      consumer := .pop .check
      batches := s.batches ++ [s.walked ++ [r]]
      walked := [] }) ∨
    (b ≠ [] ∧ s.consume = { s with
      consumer := .walk b.head? last
      walked := s.walked ++ [r] }) := by
  have hr := hl.rest
  rw [hc] at hr
  obtain ⟨rfl, hb, rfl⟩ := hr
  have hd : (r :: b).Nodup := (List.nodup_append.mp (hl.distinct hp).1).2.1
  by_cases hbn : b = []
  · subst hbn
    refine .inl ⟨rfl, ?_⟩
    simp only [State.consume, hc, walkStep, endOf_nil, if_pos]
  · have hne : some (Ref.node r) ≠ some (endOf (.node r) b) :=
      fun he => endOf_ne_self hd hbn (Option.some.inj he).symm
    refine .inr ⟨hbn, ?_⟩
    simp only [State.consume, hc, walkStep, if_neg hne, hb.next_eq hbn]

omit [DecidableEq ι] in
/-- A turn of the walk: one node less to go. -/
theorem Inv.walk {r : ν} {b : List ν} (h : Inv todo s (r :: b)) {next : Option ν}
    {last : Option (Ref ν)} (hc : s.consumer = .walk next last) : Inv todo s.consume b := by
  obtain ⟨hp, q, hl⟩ := h
  have hr := hl.rest
  rw [hc] at hr
  have hlast : s.queue.last = endOf .head q := by
    have hlast := hl.last
    rw [hc] at hlast
    exact hlast
  rcases hl.consume_walk hp hc with ⟨rfl, he⟩ | ⟨hb, he⟩
  · rw [he]
    refine ⟨hp.congr rfl rfl (fun _ => rfl) fun _ _ => rfl, q, ?_, rfl, hl.linked, hlast, trivial⟩
    simpa [State.returned] using hl.split
  · rw [he]
    refine ⟨hp.congr rfl rfl (fun _ => rfl) fun _ _ => rfl, q, ?_, ?_, hl.linked, hlast, trivial⟩
    · simpa [State.returned] using hl.split
    · cases b with
      | nil => exact absurd rfl hb
      | cons r' b => exact ⟨rfl, hr.2.1.2, hr.2.2⟩

omit [DecidableEq ι] [DecidableEq ν] in
/-- While the consumer walks, there is a node before it. -/
theorem Listed.rest_walk (h : Listed s rest q) {next : Option ν} {last : Option (Ref ν)}
    (hc : s.consumer = .walk next last) : ∃ r b, rest = r :: b := by
  have hr := h.rest
  rw [hc] at hr
  cases rest with
  | nil => exact hr.elim
  | cons r b => exact ⟨r, b, rfl⟩

omit [DecidableEq ι] in
/-- A turn of the consumer keeps the invariant. -/
theorem Inv.consume (h : Inv todo s rest) (hnd : ∀ p, (todo p).Nodup) :
    ∃ rest', Inv todo s.consume rest' := by
  obtain ⟨hp, q, hl⟩ := h
  cases hc : s.consumer with
  | crashed =>
    have hr := hl.rest
    rw [hc] at hr
    exact hr.elim
  | walk next last =>
    obtain ⟨r, b, rfl⟩ := hl.rest_walk hc
    exact ⟨b, Inv.walk ⟨hp, q, hl⟩ hc⟩
  | pop pc =>
    have hsaw := hl.saw_pop hc
    have hlast := hl.last_pop hc
    cases pc with
    | check =>
      simp only [State.consume, hc, CasPop.step]
      by_cases he : s.queue.last = .head
      · rw [if_pos he]
        exact ⟨rest, Inv.read hp hl hc hlast trivial⟩
      · rw [if_neg he]
        refine ⟨rest, Inv.read hp hl hc hlast ?_⟩
        rintro rfl
        exact he hlast
    | first =>
      simp only [State.consume, hc, CasPop.step]
      exact ⟨rest, Inv.read hp hl hc hlast ⟨hsaw, hl.linked.next_eq hsaw⟩⟩
    | load ret =>
      simp only [State.consume, hc, CasPop.step]
      exact ⟨rest, Inv.read hp hl hc hlast ⟨q, [], (List.append_nil q).symm, hsaw.1, hsaw.2, hlast⟩⟩
    | swap ret oldNode =>
      simp only [State.consume, hc, CasPop.step]
      by_cases he : s.queue.last = oldNode
      · rw [if_pos he]
        subst he
        exact ⟨rest, Inv.swap hp hnd hl hc⟩
      · rw [if_neg he]
        obtain ⟨b, q', rfl, hb⟩ := hsaw
        refine ⟨rest, Inv.read hp hl hc hlast ⟨b, q', rfl, hb, ?_⟩⟩
        rintro rfl
        rw [List.append_nil] at hlast
        exact he (hlast.trans hb.oldNode.symm)
    | clear ret oldNode =>
      rw [← List.append_nil q] at hl
      obtain ⟨hret, hi⟩ := Inv.giveOut hp hnd hl hc hsaw hlast
      simp only [State.consume, hc, CasPop.step, if_neg hret]
      exact ⟨q, hi⟩
    | readNext ret oldNode =>
      obtain ⟨b, q', rfl, hb, hq⟩ := hsaw
      simp only [State.consume, hc, CasPop.step]
      refine ⟨rest, Inv.read hp hl hc hlast ⟨b, q', rfl, hb, hq, ?_⟩⟩
      rw [hb.oldNode]
      exact (linked_append.mp hl.linked).2.next_eq hq
    | relink ret oldNode v =>
      obtain ⟨b, q', rfl, hb, hq, rfl⟩ := hsaw
      have hend : s.queue.last = endOf .head q' := by
        cases q' with
        | nil => exact absurd rfl hq
        | cons n q' =>
          rw [hlast]
          exact endOf_append .head b (n :: q')
      obtain ⟨hret, hi⟩ := Inv.giveOut hp hnd hl hc hb hend
      simp only [State.consume, hc, CasPop.step, if_neg hret]
      exact ⟨b, hi⟩

end Listed

/-! ### Runs -/

section Run

variable {todo : ι → List ν} {s : State ι ν} {rest : List ν}

/-- One turn keeps the invariant. -/
theorem Inv.step (h : Inv todo s rest) (hnd : ∀ p, (todo p).Nodup)
    (hdj : ∀ p p', p ≠ p' → (todo p).Disjoint (todo p')) (a : Actor ι) :
    ∃ rest', Inv todo (s.step a) rest' := by
  cases a with
  | producer p => exact ⟨rest, h.push hnd hdj p⟩
  | consumer => exact h.consume hnd

theorem Inv.run (h : Inv todo s rest) (hnd : ∀ p, (todo p).Nodup)
    (hdj : ∀ p p', p ≠ p' → (todo p).Disjoint (todo p')) (sched : List (Actor ι)) :
    ∃ rest', Inv todo (run s sched) rest' := by
  induction sched generalizing s rest with
  | nil => exact ⟨rest, h⟩
  | cons a sched ih =>
    obtain ⟨rest', h'⟩ := h.step hnd hdj a
    exact ih h'

omit [DecidableEq ι] in
theorem Inv.start (m : CasQueue ν) (hnull : ∀ p, ∀ n ∈ todo p, m.next (.node n) = none) :
    Inv todo (start m todo) [] := by
  refine ⟨⟨nofun, List.nodup_nil, fun _ => rfl, ?_, nofun, nofun⟩, [], rfl, rfl, trivial, rfl, trivial⟩
  intro p n hn
  change (Function.update m.next .head none) (.node n) = none
  rw [Function.update_of_ne (node_ne_head n)]
  exact hnull p n hn

omit [DecidableEq ι] in
/-- The invariant says what is wanted. -/
theorem Inv.safe (h : Inv todo s rest) : Safe todo s rest := by
  obtain ⟨hp, q, hl⟩ := h
  have hpre : s.returned rest <+: s.swung := ⟨q, hl.split.symm⟩
  refine ⟨hp.known, hp.distinct, hp.order, hl.rest, hpre, ?_, ?_⟩
  · intro p
    refine (hpre.filter _).trans ⟨(s.producer p).todo, (hp.order p).symm⟩
  · intro hin hhead
    have hlast := hl.last
    have hq : q = [] := by
      by_contra hne
      rw [hhead] at hlast
      unfold Consumer.lastOf at hlast
      split at hlast
      · rename_i he
        rw [he] at hin
        cases hin
      · exact endOf_ne_head .head hne hlast.symm
    rw [hl.split, hq, List.append_nil]

/-- A producer's turn does not touch the consumer. -/
theorem State.push_eq (s : State ι ν) (p : ι) :
    (s.push p).consumer = s.consumer ∧ (s.push p).batches = s.batches ∧
      (s.push p).walked = s.walked := by
  unfold State.push
  split
  · exact ⟨rfl, rfl, rfl⟩
  · split <;> exact ⟨rfl, rfl, rfl⟩

/-- A walk arrives: when the consumer has had as many turns as there are nodes before it, it has
walked the batch to its end. -/
theorem walk_arrives (h : Inv todo s rest) (hnd : ∀ p, (todo p).Nodup)
    (hdj : ∀ p p', p ≠ p' → (todo p).Disjoint (todo p')) {next : Option ν} {last : Option (Ref ν)}
    (hc : s.consumer = .walk next last) (sched : List (Actor ι))
    (hturns : rest.length ≤ sched.count .consumer) :
    ∃ pre, pre <+: sched ∧ (run s pre).consumer = .pop .check ∧
      (run s pre).batches = s.batches ++ [s.walked ++ rest] := by
  induction sched generalizing s rest next with
  | nil =>
    obtain ⟨q, hl⟩ := h.listed
    obtain ⟨r, b, rfl⟩ := hl.rest_walk hc
    exact absurd hturns (Nat.not_succ_le_zero _)
  | cons a sched ih =>
    cases a with
    | producer p =>
      obtain ⟨e1, e2, e3⟩ := s.push_eq p
      have hne : Actor.producer p ≠ .consumer := nofun
      rw [List.count_cons_of_ne hne] at hturns
      obtain ⟨pre, hpre, h1, h2⟩ := ih (h.push hnd hdj p) (e1.trans hc) hturns
      rw [e2, e3] at h2
      exact ⟨.producer p :: pre, List.cons_prefix_cons.mpr ⟨rfl, hpre⟩, h1, h2⟩
    | consumer =>
      obtain ⟨q, hl⟩ := h.listed
      obtain ⟨r, b, rfl⟩ := hl.rest_walk hc
      have h' := h.walk hc
      rcases hl.consume_walk h.producers hc with ⟨rfl, he⟩ | ⟨hb, he⟩
      · refine ⟨[.consumer], List.cons_prefix_cons.mpr ⟨rfl, List.nil_prefix⟩, ?_, ?_⟩
        · exact congrArg State.consumer he
        · exact congrArg State.batches he
      · rw [List.count_cons_self] at hturns
        obtain ⟨pre, hpre, h1, h2⟩ := ih h' (congrArg State.consumer he) (Nat.le_of_succ_le_succ hturns)
        refine ⟨.consumer :: pre, List.cons_prefix_cons.mpr ⟨rfl, hpre⟩, h1, h2.trans ?_⟩
        rw [congrArg State.batches he, congrArg State.walked he]
        simp

/-- Under every schedule, from `cas_queue_init` on: no walk meets NULL, the batches are a prefix of
what came in, without repetition and in each producer's order, and when no pop is going on and
`queue->last` is at the header they are all of it. A walk arrives at `*last` however the producers
interrupt it. -/
theorem run_safe (m : CasQueue ν) (todo : ι → List ν) (hnd : ∀ p, (todo p).Nodup)
    (hdj : ∀ p p', p ≠ p' → (todo p).Disjoint (todo p'))
    (hnull : ∀ p, ∀ n ∈ todo p, m.next (.node n) = none) (sched : List (Actor ι)) :
    ∃ rest, Safe todo (run (start m todo) sched) rest ∧
      ∀ next last more, (run (start m todo) sched).consumer = .walk next last →
        rest.length ≤ more.count .consumer →
          ∃ pre, pre <+: more ∧ (run (run (start m todo) sched) pre).consumer = .pop .check ∧
            (run (run (start m todo) sched) pre).batches =
              (run (start m todo) sched).batches ++
                [(run (start m todo) sched).walked ++ rest] := by
  obtain ⟨rest, h⟩ := (Inv.start m hnull).run hnd hdj sched
  refine ⟨rest, h.safe, ?_⟩
  intro next last more hc hturns
  exact walk_arrives h hnd hdj hc more hturns

/-- A producer that has read `last` before another's push has to start again. -/
theorem run_safe_two : ∃ rest, Safe (fun p : Bool => [p])
    (run (start ⟨fun _ => none, .head⟩ fun p : Bool => [p])
      [.producer false, .producer true, .producer true, .producer true, .consumer,
        .producer false]) rest := by
  obtain ⟨rest, h, -⟩ := run_safe ⟨fun _ => none, .head⟩ (fun p : Bool => [p]) (by decide)
    (by simp) (fun _ _ _ => rfl)
    [.producer false, .producer true, .producer true, .producer true, .consumer, .producer false]
  exact ⟨rest, h⟩

end Run

end CcUtils.Queue
