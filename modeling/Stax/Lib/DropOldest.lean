/-
# Stax.Lib.DropOldest — a bounded queue whose producer makes room by evicting.

One producer puts batches into a queue of bounded length, and one consumer takes them out at the
other end.  Where the queue is full the producer takes out the oldest batch itself and tries again,
or gives up a batch that is not worth it.  Sending, evicting and receiving are steps of their own, so
the consumer may come in between.

A batch has a serial number, by which it is told from others with the same contents.  What became of
the batches is listed beside the queue; the queue's own counters are changed as the policy says.

The queue stands for a bounded channel that is not ours, of the crate `flume`, with a second receiver
in the producer's hands.  What is assumed of it: a send and a receive each happen at one moment, what
is taken out is the oldest of what is in, each message once, a send fails only where the channel holds
as many messages as it may, and both ends stay for as long as the producer does, so that neither call
reports that the other side has gone.
-/
import Stax.Lib.Machine

namespace Stax.Lib.DropOldest

open Stax.Lib.Machine

/-- A batch with the serial number that it was sent under. -/
structure Entry (β : Type*) where
  serial : ℕ
  batch : β
  deriving DecidableEq, Repr

/-- What a queue's producer does: how long the queue gets, which batches are given up where it is
full, and what is counted. -/
structure Policy (β σ : Type*) where
  capacity : ℕ
  discards : β → Bool
  onDiscard : σ → β → σ
  onEvict : σ → β → σ
  onSent : σ → ℕ → σ

/-- Where the producer is with the batch in its hands: trying to send it, having found the queue
full, or having sent it. -/
inductive Producer (β : Type*)
  | idle
  | sending (e : Entry β)
  | full (e : Entry β)
  | sent (e : Entry β)
  deriving DecidableEq, Repr

/-- The queue with its counters and its producer, and beside it what became of every batch. -/
structure State (β σ : Type*) where
  counters : σ
  queue : List (Entry β) := []
  producer : Producer β := .idle
  /-- The batches that were put into the queue or given up. -/
  enqueued : List (Entry β) := []
  received : List (Entry β) := []
  /-- The batches taken out to make room, each with the one that room was made for. -/
  evicted : List (Entry β × Entry β) := []
  discarded : List (Entry β) := []

/-- The steps of the producer with one batch, and those of the consumer. -/
inductive Action (β : Type*)
  | enqueue (batch : β)
  | trySend
  | tryRecv
  | finish
  | receive
  deriving DecidableEq, Repr

/-- The batch that an action brings in. -/
def Action.batch? {β : Type*} : Action β → Option β
  | .enqueue batch => some batch
  | .trySend | .tryRecv | .finish | .receive => none

/-- The steps in which a producer goes on with the batch it has. -/
def Action.isProducer {β : Type*} : Action β → Bool
  | .trySend | .tryRecv | .finish => true
  | .enqueue _ | .receive => false

variable {β σ : Type*}

/-- What an action does, where it can happen at all. -/
def step (policy : Policy β σ) (s : State β σ) : Action β → Option (State β σ)
  | .enqueue batch =>
    match s.producer with
    | .idle => some { s with producer := .sending { serial := s.enqueued.length, batch := batch } }
    | _ => none
  | .trySend =>
    match s.producer with
    | .sending e =>
      if s.queue.length < policy.capacity then
        some { s with
          queue := s.queue ++ [e]
          producer := .sent e
          enqueued := s.enqueued ++ [e] }
      else if policy.discards e.batch then
        some { s with
          counters := policy.onDiscard s.counters e.batch
          producer := .idle
          enqueued := s.enqueued ++ [e]
          discarded := s.discarded ++ [e] }
      else some { s with producer := .full e }
    | _ => none
  | .tryRecv =>
    match s.producer with
    | .full e =>
      match s.queue with
      | [] => some { s with producer := .sending e }
      | oldest :: rest =>
        some { s with
          counters := policy.onEvict s.counters oldest.batch
          queue := rest
          producer := .sending e
          evicted := s.evicted ++ [(oldest, e)] }
    | _ => none
  | .finish =>
    match s.producer with
    | .sent _ =>
      some { s with
        counters := policy.onSent s.counters s.queue.length
        producer := .idle }
    | _ => none
  | .receive =>
    match s.queue with
    | [] => none
    | oldest :: rest => some { s with queue := rest, received := s.received ++ [oldest] }

/-- The batches that were lost, to make room or because they were given up. -/
def State.dropped (s : State β σ) : List (Entry β) := s.evicted.map Prod.fst ++ s.discarded

/-- An empty queue with an idle producer. -/
def initial (counters : σ) : State β σ := { counters := counters }

/-! ## What a step can do -/

variable {policy : Policy β σ} {s s' : State β σ} {action : Action β}

/-- All that a step can do, with the conditions under which it does. -/
theorem step_cases (h : step policy s action = some s') :
    (∃ batch, action = .enqueue batch ∧ s.producer = .idle ∧
        s' = { s with producer := .sending { serial := s.enqueued.length, batch := batch } }) ∨
      (∃ e, action = .trySend ∧ s.producer = .sending e ∧ s.queue.length < policy.capacity ∧
        s' = { s with
          queue := s.queue ++ [e]
          producer := .sent e
          enqueued := s.enqueued ++ [e] }) ∨
      (∃ e, action = .trySend ∧ s.producer = .sending e ∧ policy.capacity ≤ s.queue.length ∧
        policy.discards e.batch ∧
        s' = { s with
          counters := policy.onDiscard s.counters e.batch
          producer := .idle
          enqueued := s.enqueued ++ [e]
          discarded := s.discarded ++ [e] }) ∨
      (∃ e, action = .trySend ∧ s.producer = .sending e ∧ policy.capacity ≤ s.queue.length ∧
        s' = { s with producer := .full e }) ∨
      (∃ e, action = .tryRecv ∧ s.producer = .full e ∧ s.queue = [] ∧
        s' = { s with producer := .sending e }) ∨
      (∃ e oldest rest, action = .tryRecv ∧ s.producer = .full e ∧ s.queue = oldest :: rest ∧
        s' = { s with
          counters := policy.onEvict s.counters oldest.batch
          queue := rest
          producer := .sending e
          evicted := s.evicted ++ [(oldest, e)] }) ∨
      (∃ e, action = .finish ∧ s.producer = .sent e ∧
        s' = { s with
          counters := policy.onSent s.counters s.queue.length
          producer := .idle }) ∨
      ∃ oldest rest, action = .receive ∧ s.queue = oldest :: rest ∧
        s' = { s with queue := rest, received := s.received ++ [oldest] } := by
  -- an action that needs another producer, or a queue that is not empty, leaves nothing to show
  cases action with
  | enqueue batch =>
      simp only [step] at h
      split at h
      · rename_i hidle
        exact Or.inl ⟨batch, rfl, hidle, (Option.some_inj.mp h).symm⟩
      · simp at h
  | trySend =>
      simp only [step] at h
      split at h
      · rename_i e hsending
        split_ifs at h with hroom hdiscards
        · exact Or.inr (Or.inl ⟨e, rfl, hsending, hroom, (Option.some_inj.mp h).symm⟩)
        · exact Or.inr (Or.inr (Or.inl
            ⟨e, rfl, hsending, not_lt.mp hroom, hdiscards, (Option.some_inj.mp h).symm⟩))
        · exact Or.inr (Or.inr (Or.inr (Or.inl
            ⟨e, rfl, hsending, not_lt.mp hroom, (Option.some_inj.mp h).symm⟩)))
      · simp at h
  | tryRecv =>
      simp only [step] at h
      split at h
      · rename_i e hfull
        split at h
        · rename_i hempty
          exact Or.inr (Or.inr (Or.inr (Or.inr (Or.inl
            ⟨e, rfl, hfull, hempty, (Option.some_inj.mp h).symm⟩))))
        · rename_i oldest rest hqueue
          exact Or.inr (Or.inr (Or.inr (Or.inr (Or.inr (Or.inl
            ⟨e, oldest, rest, rfl, hfull, hqueue, (Option.some_inj.mp h).symm⟩)))))
      · simp at h
  | finish =>
      simp only [step] at h
      split at h
      · rename_i e hsent
        exact Or.inr (Or.inr (Or.inr (Or.inr (Or.inr (Or.inr (Or.inl
          ⟨e, rfl, hsent, (Option.some_inj.mp h).symm⟩))))))
      · simp at h
  | receive =>
      simp only [step] at h
      split at h
      · simp at h
      · rename_i oldest rest hqueue
        exact Or.inr (Or.inr (Or.inr (Or.inr (Or.inr (Or.inr (Or.inr
          ⟨oldest, rest, rfl, hqueue, (Option.some_inj.mp h).symm⟩))))))

theorem receive_cases (h : step policy s .receive = some s') :
    ∃ oldest rest, s.queue = oldest :: rest ∧
      s' = { s with queue := rest, received := s.received ++ [oldest] } := by
  rcases step_cases h with ⟨_, h, -⟩ | ⟨_, h, -⟩ | ⟨_, h, -⟩ | ⟨_, h, -⟩ | ⟨_, h, -⟩ |
    ⟨_, _, _, h, -⟩ | ⟨_, h, -⟩ | ⟨oldest, rest, -, hqueue, hs'⟩
  case inr.inr.inr.inr.inr.inr.inr => exact ⟨oldest, rest, hqueue, hs'⟩
  all_goals simp at h

/-- The producer does not receive. -/
theorem received_of_producer (hreceive : action ≠ .receive)
    (h : step policy s action = some s') : s'.received = s.received := by
  rcases step_cases h with ⟨batch, -, -, rfl⟩ | ⟨e, -, -, -, rfl⟩ | ⟨e, -, -, -, -, rfl⟩ |
    ⟨e, -, -, -, rfl⟩ | ⟨e, -, -, -, rfl⟩ | ⟨e, oldest, rest, -, -, -, rfl⟩ | ⟨e, -, -, rfl⟩ |
    ⟨oldest, rest, rfl, -, -⟩
  all_goals first | rfl | exact absurd rfl hreceive

/-! ## Nothing is lost -/

/-- Every batch is received, queued, evicted or given up; what is received and queued is in order. -/
structure Accounted (policy : Policy β σ) (s : State β σ) : Prop where
  serials : s.enqueued.map Entry.serial = List.range s.enqueued.length
  pending : ∀ e, s.producer = .sending e ∨ s.producer = .full e → e.serial = s.enqueued.length
  ordered : (s.received ++ s.queue).Sublist s.enqueued
  parted : s.enqueued.Perm (s.received ++ s.queue ++ s.dropped)
  bounded : s.queue.length ≤ policy.capacity
  evictor : ∀ pair ∈ s.evicted, pair.1.serial < pair.2.serial
  discards : ∀ e ∈ s.discarded, policy.discards e.batch

theorem accounted_initial (counters : σ) : Accounted policy (initial counters) where
  serials := rfl
  pending := fun e h => by rcases h with h | h <;> simp [initial] at h
  ordered := List.Sublist.refl _
  parted := List.Perm.refl _
  bounded := Nat.zero_le _
  evictor := fun _ h => absurd h List.not_mem_nil
  discards := fun _ h => absurd h List.not_mem_nil

theorem Accounted.serial_lt (h : Accounted policy s) {e : Entry β} (he : e ∈ s.enqueued) :
    e.serial < s.enqueued.length := by
  have hmem : e.serial ∈ s.enqueued.map Entry.serial := List.mem_map_of_mem he
  rw [h.serials, List.mem_range] at hmem
  exact hmem

theorem Accounted.serials_append (h : Accounted policy s) {e : Entry β}
    (he : s.producer = .sending e) :
    (s.enqueued ++ [e]).map Entry.serial = List.range (s.enqueued ++ [e]).length := by
  rw [List.map_append, h.serials, List.length_append, List.length_singleton, List.range_succ,
    List.map_singleton, h.pending e (Or.inl he)]

theorem perm_move {α : Type*} (a : α) (l l' l'' : List α) :
    (l ++ a :: l' ++ l'').Perm (l ++ l' ++ (l'' ++ [a])) := by
  rw [List.append_assoc, List.append_assoc, List.cons_append, ← List.append_assoc l']
  exact (List.perm_append_singleton a (l' ++ l'')).symm.append_left l

/-- Whatever happens next, every batch is still in one place, and those that get through are in
order. -/
theorem Accounted.step (h : Accounted policy s)
    (hstep : DropOldest.step policy s action = some s') : Accounted policy s' := by
  rcases step_cases hstep with ⟨batch, -, -, rfl⟩ | ⟨e, -, hsending, hroom, rfl⟩ |
    ⟨e, -, hsending, -, hdiscards, rfl⟩ | ⟨e, -, hsending, -, rfl⟩ | ⟨e, -, hfull, -, rfl⟩ |
    ⟨e, oldest, rest, -, hfull, hqueue, rfl⟩ | ⟨e, -, -, rfl⟩ | ⟨oldest, rest, -, hqueue, rfl⟩
  · refine { h with pending := ?_ }
    intro e he
    rcases he with he | he
    · rw [← Producer.sending.inj he]
    · simp at he
  · refine { h with
      serials := h.serials_append hsending
      pending := fun e he => by rcases he with he | he <;> simp at he
      ordered := ?_, parted := ?_, bounded := ?_ }
    · rw [← List.append_assoc]
      exact h.ordered.append_right [e]
    -- the batch stands at the end of all, and is to stand behind the queue
    · have hmoved := perm_move e (s.received ++ s.queue) s.dropped []
      rw [List.append_nil, List.nil_append] at hmoved
      change (s.enqueued ++ [e]).Perm (s.received ++ (s.queue ++ [e]) ++ s.dropped)
      rw [← List.append_assoc s.received, List.append_assoc (s.received ++ s.queue) [e],
        List.singleton_append]
      exact (h.parted.append_right [e]).trans hmoved.symm
    · rw [List.length_append, List.length_singleton]
      exact hroom
  · refine { h with
      serials := h.serials_append hsending
      pending := fun e he => by rcases he with he | he <;> simp at he
      ordered := h.ordered.trans (List.sublist_append_left _ _), parted := ?_, discards := ?_ }
    · change (s.enqueued ++ [e]).Perm
        (s.received ++ s.queue ++ (s.evicted.map Prod.fst ++ (s.discarded ++ [e])))
      rw [← List.append_assoc (s.evicted.map Prod.fst), ← List.append_assoc (s.received ++ s.queue)]
      exact h.parted.append_right [e]
    -- what is given up now is given up because the policy says so
    · intro other hother
      rcases List.mem_append.mp hother with hother | hother
      · exact h.discards other hother
      · rw [List.mem_singleton.mp hother]
        exact hdiscards
  · refine { h with pending := ?_ }
    intro e' he
    rcases he with he | he
    · simp at he
    · rw [← Producer.full.inj he]
      exact h.pending e (Or.inl hsending)
  · refine { h with pending := ?_ }
    intro e' he
    rcases he with he | he
    · rw [← Producer.sending.inj he]
      exact h.pending e (Or.inr hfull)
    · simp at he
  · have hordered := h.ordered
    have hparted := h.parted
    have hbounded := h.bounded
    -- the oldest leaves the queue for the batches that were lost
    rw [hqueue] at hordered hparted hbounded
    refine { h with pending := ?_, ordered := ?_, parted := ?_, bounded := ?_, evictor := ?_ }
    · intro e' he
      rcases he with he | he
      · rw [← Producer.sending.inj he]
        exact h.pending e (Or.inr hfull)
      · simp at he
    · exact ((List.sublist_cons_self oldest rest).append_left s.received).trans hordered
    · refine hparted.trans ?_
      rw [State.dropped, State.dropped, List.map_append, List.map_singleton,
        ← List.append_assoc (s.received ++ oldest :: rest), ← List.append_assoc (s.received ++ rest)]
      exact (perm_move oldest s.received rest _).append_right s.discarded
    · exact (Nat.le_succ _).trans hbounded
    · intro pair hpair
      rcases List.mem_append.mp hpair with hpair | hpair
      · exact h.evictor pair hpair
      -- the batch in hand has the next serial, above all in the queue
      · rw [List.mem_singleton.mp hpair, h.pending e (Or.inr hfull)]
        exact h.serial_lt (hordered.subset (List.mem_append_right _ List.mem_cons_self))
  · exact { h with pending := fun e he => by rcases he with he | he <;> simp at he }
  · have hordered := h.ordered
    have hparted := h.parted
    have hbounded := h.bounded
    -- the oldest goes from the front of the queue to the end of what was received
    rw [hqueue] at hordered hparted hbounded
    refine { h with ordered := ?_, parted := ?_, bounded := ?_ }
    · rw [List.append_assoc, List.singleton_append]
      exact hordered
    · rw [List.append_assoc s.received, List.singleton_append]
      exact hparted
    · exact (Nat.le_succ _).trans hbounded

theorem accounted_of_runs {counters : σ} {actions : List (Action β)}
    (h : Runs (step policy) Any (initial counters) actions s) : Accounted policy s :=
  h.invariant (fun _ _ _ haccounted _ hstep => haccounted.step hstep) (accounted_initial counters)

theorem Accounted.nodup (h : Accounted policy s) : s.enqueued.Nodup := by
  have hserials : (s.enqueued.map Entry.serial).Nodup := by
    rw [h.serials]
    exact List.nodup_range
  exact hserials.of_map

/-! ## The batches handed to the producer -/

/-- The batches handed over so far: those it is done with, and the one it has in hand. -/
def State.handed (s : State β σ) : List β :=
  s.enqueued.map Entry.batch ++
    match s.producer with
    | .sending e | .full e => [e.batch]
    | .idle | .sent _ => []

/-- The batch that the producer is putting into the queue. -/
def Producer.inHand : Producer β → List β
  | .sending e | .full e => [e.batch]
  | .idle | .sent _ => []

theorem State.handed_eq (s : State β σ) :
    s.handed = s.enqueued.map Entry.batch ++ s.producer.inHand := by
  rw [State.handed]
  cases s.producer <;> rfl

theorem handed_step (h : step policy s action = some s') :
    s'.handed = s.handed ++ action.batch?.toList := by
  rcases step_cases h with ⟨batch, rfl, hproducer, rfl⟩ | ⟨e, rfl, hproducer, -, rfl⟩ |
    ⟨e, rfl, hproducer, -, -, rfl⟩ | ⟨e, rfl, hproducer, -, rfl⟩ | ⟨e, rfl, hproducer, -, rfl⟩ |
    ⟨e, oldest, rest, rfl, hproducer, -, rfl⟩ | ⟨e, rfl, hproducer, rfl⟩ |
    ⟨oldest, rest, rfl, -, rfl⟩
  all_goals simp [State.handed, Action.batch?, *]

theorem handed_of_runs {counters : σ} {actions : List (Action β)}
    (h : Runs (step policy) Any (initial counters) actions s) :
    s.handed = actions.filterMap Action.batch? := by
  have hgrows : ∀ {s s' : State β σ} {actions : List (Action β)},
      Runs (step policy) Any s actions s' → s'.handed = s.handed ++ actions.filterMap Action.batch? := by
    intro s s' actions h
    induction h with
    | nil s => simp
    | cons hcond hstep hrest ih =>
        rw [ih, handed_step hstep, List.append_assoc]
        congr 1
        rw [List.filterMap_cons]
        cases Action.batch? _ <;> rfl
  exact hgrows h

/-! ## What is counted -/

/-- How much the batches weigh together. -/
def total (weight : β → ℕ) (entries : List (Entry β)) : ℕ :=
  (entries.map fun e => weight e.batch).sum

theorem total_append (weight : β → ℕ) (l l' : List (Entry β)) :
    total weight (l ++ l') = total weight l + total weight l' := by
  rw [total, total, total, List.map_append, List.sum_append]

theorem Accounted.total_eq (h : Accounted policy s) (weight : β → ℕ) :
    total weight s.enqueued =
      total weight s.received + total weight s.queue + total weight s.dropped := by
  rw [← total_append, ← total_append]
  exact (h.parted.map _).sum_eq

/-- A counter adds up what the dropped batches weigh, each rounded to what it can hold. -/
structure Counts {M : Type*} [AddCommMonoid M] (policy : Policy β σ) (counted : σ → M)
    (round : ℕ →+ M) (weight : β → ℕ) : Prop where
  evict : ∀ counters batch,
    counted (policy.onEvict counters batch) = counted counters + round (weight batch)
  discard : ∀ counters batch, policy.discards batch →
    counted (policy.onDiscard counters batch) = counted counters + round (weight batch)
  sent : ∀ counters depth, counted (policy.onSent counters depth) = counted counters

variable {M : Type*} [AddCommMonoid M] {counted : σ → M} {round : ℕ →+ M} {weight : β → ℕ}

/-- A counter that counts every drop is in step with what was dropped. -/
theorem Counts.step (h : Counts policy counted round weight) {c : M}
    (hcounted : counted s.counters = c + round (total weight s.dropped))
    (hstep : DropOldest.step policy s action = some s') :
    counted s'.counters = c + round (total weight s'.dropped) := by
  rcases step_cases hstep with ⟨batch, -, -, rfl⟩ | ⟨e, -, -, -, rfl⟩ |
    ⟨e, -, -, -, hdiscards, rfl⟩ | ⟨e, -, -, -, rfl⟩ | ⟨e, -, -, -, rfl⟩ |
    ⟨e, oldest, rest, -, -, -, rfl⟩ | ⟨e, -, -, rfl⟩ | ⟨oldest, rest, -, -, rfl⟩
  · exact hcounted
  · exact hcounted
  · have hdropped : total weight (s.evicted.map Prod.fst ++ (s.discarded ++ [e])) =
        total weight s.dropped + weight e.batch := by
      rw [← List.append_assoc, total_append]
      simp [total, State.dropped]
    change counted (policy.onDiscard s.counters e.batch) =
      c + round (total weight (s.evicted.map Prod.fst ++ (s.discarded ++ [e])))
    rw [h.discard _ _ hdiscards, hcounted, hdropped, map_add, add_assoc]
  · exact hcounted
  · exact hcounted
  · have hdropped : total weight ((s.evicted ++ [(oldest, e)]).map Prod.fst ++ s.discarded) =
        total weight s.dropped + weight oldest.batch := by
      simp only [total, State.dropped, List.map_append, List.map_cons, List.map_nil,
        List.sum_append, List.sum_cons, List.sum_nil]
      omega
    change counted (policy.onEvict s.counters oldest.batch) =
      c + round (total weight ((s.evicted ++ [(oldest, e)]).map Prod.fst ++ s.discarded))
    rw [h.evict, hcounted, hdropped, map_add, add_assoc]
  · exact (h.sent _ _).trans hcounted
  · exact hcounted

theorem Counts.of_runs (h : Counts policy counted round weight) {counters : σ}
    {actions : List (Action β)} (hrun : Runs (DropOldest.step policy) Any (initial counters) actions s) :
    counted s.counters = counted counters + round (total weight s.dropped) := by
  refine hrun.invariant (p := fun s => counted s.counters =
    counted counters + round (total weight s.dropped)) ?_ ?_
  · intro s a s' hcounted _ hstep
    exact h.step hcounted hstep
  · simp [initial, State.dropped, total]

/-! ## A producer left alone comes to an end -/

/-- How many steps the producer has left where nobody else takes one. -/
def rank (policy : Policy β σ) (s : State β σ) : ℕ :=
  match s.producer with
  | .idle => 0
  | .sending _ => if s.queue.length < policy.capacity then 2 else 4
  | .full _ => 3
  | .sent _ => 1

/-- How many batches it may still evict. -/
def evictions (policy : Policy β σ) (s : State β σ) : ℕ :=
  match s.producer with
  | .sending _ => if s.queue.length < policy.capacity then 0 else 1
  | .full _ => 1
  | .idle | .sent _ => 0

theorem rank_le (policy : Policy β σ) (s : State β σ) : rank policy s ≤ 4 := by
  cases hproducer : s.producer <;> simp only [rank, hproducer] <;> try omega
  split_ifs <;> omega

theorem evictions_le (policy : Policy β σ) (s : State β σ) : evictions policy s ≤ 1 := by
  cases hproducer : s.producer <;> simp only [evictions, hproducer] <;> try omega
  split_ifs <;> omega

/-- A producer that is alone with its queue comes closer to its end with every step, and evicts no
more than it has to. -/
theorem Accounted.alone_step (h : Accounted policy s) (hcapacity : 1 ≤ policy.capacity)
    (hproducer : action.isProducer) (hstep : DropOldest.step policy s action = some s') :
    rank policy s' + 1 ≤ rank policy s ∧
      s'.evicted.length + evictions policy s' ≤ s.evicted.length + evictions policy s := by
  have hbounded := h.bounded
  rcases step_cases hstep with ⟨batch, rfl, -, -⟩ | ⟨e, -, hsending, hroom, rfl⟩ |
    ⟨e, -, hsending, hfull, -, rfl⟩ | ⟨e, -, hsending, hfull, rfl⟩ | ⟨e, -, hproducer, hempty, rfl⟩ |
    ⟨e, oldest, rest, -, hproducer, hqueue, rfl⟩ | ⟨e, -, hsent, rfl⟩ | ⟨oldest, rest, rfl, -, -⟩
  · simp [Action.isProducer] at hproducer
  · simp [rank, evictions, hsending, hroom]
  · simp [rank, evictions, hsending, not_lt.mpr hfull]
  · simp [rank, evictions, hsending, not_lt.mpr hfull]
  · have hroom : 0 < policy.capacity := hcapacity
    simp [rank, evictions, hproducer, hempty, hroom]
  · have hroom : rest.length < policy.capacity := by
      rw [hqueue, List.length_cons] at hbounded
      exact hbounded
    simp [rank, evictions, hproducer, hroom]
  · simp [rank, evictions, hsent]
  · simp [Action.isProducer] at hproducer

/-- Left alone, the producer takes at most four steps and evicts at most one batch. -/
theorem Accounted.alone (h : Accounted policy s) (hcapacity : 1 ≤ policy.capacity)
    {actions : List (Action β)}
    (hrun : Runs (DropOldest.step policy) (fun _ a => a.isProducer) s actions s') :
    actions.length ≤ 4 ∧ s'.evicted.length ≤ s.evicted.length + 1 := by
  have hsteps : actions.length + rank policy s' ≤ rank policy s ∧
      s'.evicted.length + evictions policy s' ≤ s.evicted.length + evictions policy s := by
    induction hrun with
    | nil s => simp
    | cons hproducer hstep hrest ih =>
        have hone := h.alone_step hcapacity hproducer hstep
        have hmore := ih (h.step hstep)
        rw [List.length_cons]
        omega
  have hrank := rank_le policy s
  have hevictions := evictions_le policy s
  omega

/-- And it can take the next one until it is done. -/
theorem exists_producer_step (h : s.producer ≠ .idle) :
    ∃ action s', action.isProducer ∧ step policy s action = some s' := by
  cases hproducer : s.producer with
  | idle => exact absurd hproducer h
  | sending e =>
      refine ⟨.trySend, ?_⟩
      simp only [step, hproducer]
      split_ifs <;> exact ⟨_, rfl, rfl⟩
  | full e =>
      refine ⟨.tryRecv, ?_⟩
      simp only [step, hproducer]
      split <;> exact ⟨_, rfl, rfl⟩
  | sent e =>
      refine ⟨.finish, ?_⟩
      simp only [step, hproducer]
      exact ⟨_, rfl, rfl⟩

/-! ## The promise -/

/-- A queue whose counter `counted` accounts for the records of every batch, up to what it holds. -/
structure Accounts (policy : Policy β σ) (counters : σ) (counted : σ → ℕ) (cut : ℕ → ℕ)
    (records : β → ℕ) : Prop where
  /-- After each completed enqueue, the records of the batches handed over so far are received,
  queued or dropped, and the counter shows the dropped ones. -/
  complete : ∀ actions s, Runs (step policy) Any (initial counters) actions s →
    s.producer = .idle →
      s.enqueued.map Entry.batch = actions.filterMap Action.batch? ∧
        total records s.enqueued =
          total records s.received + total records s.queue + total records s.dropped ∧
        counted s.counters = cut (total records s.dropped)
  /-- What the consumer received is in the order of the enqueues, each batch once. -/
  ordered : ∀ actions s, Runs (step policy) Any (initial counters) actions s →
    s.received.Sublist s.enqueued ∧ s.enqueued.Nodup
  /-- A batch is evicted by a later one only, and given up only where the policy says so. -/
  evictor : ∀ actions s, Runs (step policy) Any (initial counters) actions s →
    (∀ pair ∈ s.evicted, pair.1.serial < pair.2.serial) ∧
      ∀ e ∈ s.discarded, policy.discards e.batch
  /-- An enqueue left alone ends, after at most one eviction. -/
  alone : ∀ actions s, Runs (step policy) Any (initial counters) actions s →
    ∀ later s', Runs (step policy) (fun _ a => a.isProducer) s later s' →
      later.length ≤ 4 ∧ s'.evicted.length ≤ s.evicted.length + 1 ∧
        (s'.producer = .idle ∨
          ∃ action s'', action.isProducer ∧ step policy s' action = some s'')

/-- A queue whose counter is raised with every drop accounts for its drops, counted from zero. -/
theorem Counts.accounts {counter : σ → M} (h : Counts policy counter round weight) {counters : σ}
    (hzero : counter counters = 0) (hcapacity : 1 ≤ policy.capacity) (value : M → ℕ) :
    Accounts policy counters (fun c => value (counter c)) (fun n => value (round n)) weight where
  complete := by
    intro actions s hrun hidle
    have hhanded := handed_of_runs hrun
    rw [State.handed, hidle, List.append_nil] at hhanded
    refine ⟨hhanded, (accounted_of_runs hrun).total_eq weight, ?_⟩
    rw [h.of_runs hrun, hzero, zero_add]
  ordered := by
    intro actions s hrun
    have haccounted := accounted_of_runs hrun
    exact ⟨(List.sublist_append_left s.received s.queue).trans haccounted.ordered,
      haccounted.nodup⟩
  evictor := by
    intro actions s hrun
    have haccounted := accounted_of_runs hrun
    exact ⟨haccounted.evictor, haccounted.discards⟩
  alone := by
    intro actions s hrun later s' hlater
    have hbounds := (accounted_of_runs hrun).alone hcapacity hlater
    refine ⟨hbounds.1, hbounds.2, ?_⟩
    by_cases hidle : s'.producer = .idle
    · exact Or.inl hidle
    · exact Or.inr (exists_producer_step hidle)

end Stax.Lib.DropOldest
