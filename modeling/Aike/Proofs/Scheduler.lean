import Aike.Model.Scheduler

/-!
# `Aike.Proofs.Scheduler`: the scheduler is a FIFO queue and loses nothing

What a coroutine goes through is a `life`: the events of its stack in the log, read by an
automaton (`Phase.next`). What the scheduler knows about a coroutine is its place: on the
ready list, in `current`, or in `cleanup`. `Inv` is the joint invariant. The links spell
out a list of coroutines, every coroutine in memory has one place and is in the phase that
belongs to it, and what was queued is what was resumed followed by the ready list.

* `coroQueue_run` and `coroDispatch_run` are the two operations on the list.
* `Effect` is what an action does to the list, the coroutines, the control and the log.
* `inv_step` is the step: from a state with the invariant, what is enabled does not crash,
  has its effect, and keeps the invariant.
* `schedulerRun_fifo` is the run.
-/

set_option autoImplicit false

namespace Aike

/-- How far a coroutine has come. -/
inductive Phase
  | unborn
  | created
  | ready
  | running
  | yielding
  | ended
  | gone
  | released
  deriving DecidableEq, Repr

/-- What may happen to a coroutine in a phase. It is resumed only after it was queued, and
its stack is released once, after its function has returned and it has left the stack. -/
def Phase.next : Phase → CoroEvent → Option Phase
  | .unborn, .spawned => some .created
  | .created, .queued => some .ready
  | .ready, .resumed => some .running
  | .running, .queued => some .yielding
  | .yielding, .left => some .ready
  | .running, .finished => some .ended
  | .ended, .left => some .gone
  | .gone, .released => some .released
  | _, _ => none

namespace Scheduler

/-- The phase that some events lead to, if they may happen in this order. -/
def phaseAfter (log : List (CoroEvent × StackId)) : Option Phase :=
  log.foldlM (fun (phase : Phase) e => phase.next e.1) .unborn

/-- What the coroutine with a stack has come to. -/
def life (log : List (CoroEvent × StackId)) (stack : StackId) : Option Phase :=
  phaseAfter (log.filter fun e => e.2 = stack)

/-- The stacks to which an event happened, in order. -/
def events (event : CoroEvent) (log : List (CoroEvent × StackId)) : List StackId :=
  (log.filter fun e => e.1 = event).map Prod.snd

/-- The links of the coroutines. -/
def links (heap : CoroAddr → Option Coro) (a : CoroAddr) : Option (Linked.Links CoroAddr) :=
  (heap a).map fun c => ⟨c.prev, c.next⟩

/-- A coroutine without its links: where it goes on, its stack and its function. -/
structure Body where
  context : Option Context
  stack : StackId
  fn : Nat

def Body.of (c : Coro) : Body := ⟨c.context, c.stack, c.fn⟩

/-- The coroutines in memory, without their links. -/
def bodies (heap : CoroAddr → Option Coro) (a : CoroAddr) : Option Body := (heap a).map Body.of

/-- The stack of the coroutine at an address. -/
def stackAt (heap : CoroAddr → Option Coro) (a : CoroAddr) : StackId :=
  match bodies heap a with
  | some b => b.stack
  | none => 0

/-- Where the globals keep a coroutine, with the phase that belongs to the place. -/
inductive Place (ready : List CoroAddr) (current cleanup : Option CoroAddr) (a : CoroAddr) :
    Phase → Prop
  | ready (h : a ∈ ready) : Place ready current cleanup a .ready
  | current (h : current = some a) : Place ready current cleanup a .running
  | cleanup (h : cleanup = some a) : Place ready current cleanup a .gone

/-- The context goes on in the function of the coroutine at `a`, on its own stack. -/
def Body.Resumable (b : Body) (a : CoroAddr) : Prop :=
  b.context = some ⟨b.stack, .entry⟩ ∨ b.context = some ⟨b.stack, .yielded a⟩

/-- Every coroutine in memory has a mapped stack of its own and a place, and is in the phase
that belongs to the place. The stacks of the others are released. -/
structure Table (coros : CoroAddr → Option Body) (place : CoroAddr → Phase → Prop)
    (stackCount : Nat) (mapped : StackId → Bool) (phase : StackId → Option Phase) : Prop where
  placed : ∀ a p, place a p → ∃ b, coros a = some b ∧ phase b.stack = some p
  live : ∀ a b, coros a = some b →
    b.stack < stackCount ∧ mapped b.stack = true ∧ ∃ p, place a p
  resumable : ∀ a b, place a .ready → coros a = some b → b.Resumable a
  distinct : ∀ a a' b b', coros a = some b → coros a' = some b' → b.stack = b'.stack → a = a'
  unborn : ∀ stack, stackCount ≤ stack → phase stack = some .unborn
  dead : ∀ stack < stackCount,
    (∃ a b, coros a = some b ∧ b.stack = stack) ∨ phase stack = some .released

/-- What the globals are while each part of the code runs. -/
inductive ControlInv (s : Scheduler) (ready : List CoroAddr) : Prop
  | main (h : s.control = .main) (current : s.current = none) (cleanup : s.cleanup = none)
  | worker (h : s.control = .worker) (current : s.current = none) (captured : s.worker = true)
  | running {a : CoroAddr} {b : Body} (h : s.control = .running a b.stack)
      (body : bodies s.heap a = some b) (current : s.current = some a)
      (cleanup : s.cleanup = none) (captured : s.worker = true)
  | returned (h : s.control = .returned) (current : s.current = none)
      (cleanup : s.cleanup = none) (empty : ready = [])

/-- The joint invariant of the four globals, the links, the contexts and the log. -/
structure Inv (s : Scheduler) (ready : List CoroAddr) : Prop where
  linked : Linked (links s.heap) s.readyHead s.readyTail ready
  table : Table (bodies s.heap) (Place ready s.current s.cleanup) s.stackCount s.mapped (life s.log)
  control : ControlInv s ready
  fifo : events .queued s.log = events .resumed s.log ++ ready.map (stackAt s.heap)
  finished : events .finished s.log
    = events .released s.log ++ s.cleanup.toList.map (stackAt s.heap)
  spawned : events .spawned s.log = List.range s.stackCount

/-- What the log says of the coroutine that the worker releases, if there is one. -/
def releases (s : Scheduler) : List (CoroEvent × StackId) :=
  s.cleanup.toList.map fun a => (.released, stackAt s.heap a)

/-- What an action does, to the ready list, the coroutines in memory, the control and the
log. A spawned coroutine and one that yields come last in the list, and the worker resumes
the first one of it, or returns if there is none. -/
inductive Effect (s : Scheduler) (ready : List CoroAddr) :
    Action → Scheduler → List CoroAddr → Prop
  | spawn {fn : Nat} {coro : CoroAddr} {memory : Coro} {s' : Scheduler}
      (new : bodies s'.heap coro = some ⟨some ⟨s.stackCount, .entry⟩, s.stackCount, fn⟩)
      (others : ∀ a, a ≠ coro → bodies s'.heap a = bodies s.heap a)
      (control : s'.control = s.control)
      (log : s'.log = s.log ++ [(.spawned, s.stackCount), (.queued, s.stackCount)]) :
      Effect s ready (.spawn fn coro memory) s' (ready ++ [coro])
  | run {s' : Scheduler} (heap : s'.heap = s.heap) (control : s'.control = .worker)
      (log : s'.log = s.log) : Effect s ready .run s' ready
  | yield {coro : CoroAddr} {stack : StackId} {b : Body} {s' : Scheduler}
      (running : s.control = .running coro stack) (body : bodies s.heap coro = some b)
      (captured : bodies s'.heap coro = some { b with context := some ⟨stack, .yielded coro⟩ })
      (others : ∀ a, a ≠ coro → bodies s'.heap a = bodies s.heap a)
      (control : s'.control = .worker)
      (log : s'.log = s.log ++ [(.queued, stack), (.left, stack)]) :
      Effect s ready .yield s' (ready ++ [coro])
  | finish {coro : CoroAddr} {stack : StackId} {s' : Scheduler}
      (running : s.control = .running coro stack) (heap : s'.heap = s.heap)
      (cleanup : s'.cleanup = some coro) (control : s'.control = .worker)
      (log : s'.log = s.log ++ [(.finished, stack), (.left, stack)]) :
      Effect s ready .finish s' ready
  | resume {coro : CoroAddr} {rest : List CoroAddr} {b : Body} {s' : Scheduler}
      (first : ready = coro :: rest) (body : bodies s.heap coro = some b)
      (heap : ∀ a, bodies s'.heap a = if s.cleanup = some a then none else bodies s.heap a)
      (cleanup : s'.cleanup = none) (control : s'.control = .running coro b.stack)
      (log : s'.log = s.log ++ s.releases ++ [(.resumed, b.stack)]) :
      Effect s ready .dispatch s' rest
  | return {s' : Scheduler} (empty : ready = [])
      (heap : ∀ a, bodies s'.heap a = if s.cleanup = some a then none else bodies s.heap a)
      (cleanup : s'.cleanup = none) (control : s'.control = .returned)
      (log : s'.log = s.log ++ s.releases) : Effect s ready .dispatch s' []

/-! ### Logs -/

section Log

variable {log : List (CoroEvent × StackId)} {stack stack' : StackId} {event e : CoroEvent}

/-- An event moves the life of its own coroutine, and no other one. -/
theorem life_append :
    life (log ++ [(e, stack')]) stack
      = if stack' = stack then (life log stack).bind (·.next e) else life log stack := by
  by_cases h : stack' = stack
  · have hone : List.filter (fun e => decide (e.2 = stack)) [(e, stack')] = [(e, stack')] := by
      simp [h]
    rw [if_pos h, life, life, List.filter_append, hone]
    simp only [phaseAfter, List.foldlM_append, List.foldlM_cons, List.foldlM_nil,
      Option.bind_eq_bind]
    congr 1
    funext phase
    cases phase.next e <;> rfl
  · simp [life, h, List.filter_append]

/-- An event of another stack is none of this life. -/
theorem life_append_of_ne (h : stack' ≠ stack) :
    life (log ++ [(e, stack')]) stack = life log stack := life_append.trans (if_neg h)

/-- An event of the stack is the next one in its life. -/
theorem life_append_self :
    life (log ++ [(e, stack)]) stack = (life log stack).bind (·.next e) :=
  life_append.trans (if_pos rfl)

/-- The events of a kind in two logs one after the other. -/
@[simp] theorem events_append {log' : List (CoroEvent × StackId)} :
    events event (log ++ log') = events event log ++ events event log' := by
  simp [events, List.filter_append]

/-- The events of a kind in a log that starts with one. -/
@[simp] theorem events_cons :
    events event ((e, stack) :: log)
      = if e = event then stack :: events event log else events event log := by
  by_cases h : e = event <;> simp [events, h]

/-- There are none in an empty log. -/
@[simp] theorem events_nil : events event [] = [] := rfl

end Log

/-! ### The two operations on the ready list -/

section Operations

variable {s : Scheduler} {a : CoroAddr} {c : Coro} {ready : List CoroAddr}

/-- A coroutine that is in memory can be read. -/
theorem load_bind {α : Type} (h : s.heap a = some c) (k : Coro → Except Crash α) :
    (s.load a >>= k) = k c := by
  simp only [load, h]
  rfl

/-- A condition that holds is no crash. -/
theorem check_bind {α : Type} {condition : Bool} (h : condition = true)
    (k : Unit → Except Crash α) : (check condition >>= k) = k () := by
  rw [check, if_pos h]
  rfl

/-- `coroQueue` puts a coroutine at the end of the ready list and changes links only. -/
theorem coroQueue_run (hlinked : Linked (links s.heap) s.readyHead s.readyTail ready)
    (ha : a ∉ ready) (hheap : s.heap a = some c) :
    ∃ heap, s.coroQueue a = .ok
        { s with
            heap := heap, readyHead := s.readyHead.or (some a), readyTail := some a
            log := s.log ++ [(.queued, c.stack)] }
      ∧ Linked (links heap) (s.readyHead.or (some a)) (some a) (ready ++ [a])
      ∧ bodies heap = bodies s.heap := by
  cases htail : s.readyTail with
  -- The list is empty: the coroutine becomes head and tail.
  | none =>
      rw [htail] at hlinked
      have hnil : ready = [] := hlinked.eq_nil_of_tail
      have hhead : s.readyHead = none := by rw [hlinked.head_eq, hnil]; rfl
      refine ⟨update (update s.heap a (some { c with next := none })) a
        (some { c with next := none, prev := none }), ?_, ?_, ?_⟩
      · simp [coroQueue, load, store, update, check, record, hheap, htail, hhead]
        rfl
      · refine hlinked.push ha ?_ (fun t ht => by simp at ht) fun b hb => ?_
        · simp [links, update]
        · rw [hnil] at hb
          simp at hb
      · funext b
        by_cases hb : b = a
        · simp [bodies, update, hb, hheap, Body.of]
        · simp [bodies, update, hb]
  -- The old tail, which is in the list and so is another coroutine, points to the new one.
  | some t =>
      rw [htail] at hlinked
      have hmem : t ∈ ready := List.mem_of_getLast? hlinked.tail_eq.symm
      have hta : t ≠ a := fun h => ha (h ▸ hmem)
      obtain ⟨l, hl⟩ := hlinked.chain.exists_links hmem
      simp only [links, Option.map_eq_some_iff] at hl
      obtain ⟨ct, hct, -⟩ := hl
      refine ⟨update (update (update s.heap a (some { c with next := none })) a
          (some { c with next := none, prev := some t })) t (some { ct with next := some a }),
        ?_, ?_, ?_⟩
      · have hhead : ∃ h, s.readyHead = some h := by
          rw [hlinked.head_eq]
          exact Option.isSome_iff_exists.mp (by
            rw [List.isSome_head?]
            simpa using List.ne_nil_of_mem hmem)
        obtain ⟨h, hhead⟩ := hhead
        simp [coroQueue, load, store, update, record, hheap, htail, hta, hct, hhead]
        rfl
      · refine hlinked.push ha ?_ (fun t' ht' => ?_) fun b hb hbt => ?_
        · simp [links, update, hta.symm]
        · rw [← Option.some.inj ht']
          exact ⟨⟨ct.prev, ct.next⟩, by simp [links, hct], by simp [links, update]⟩
        · have hba : b ≠ a := fun h => ha (h ▸ hb)
          have hbt' : b ≠ t := fun h => hbt (by rw [h])
          simp [links, update, hba, hbt']
      · funext b
        by_cases hbt : b = t
        · simp [bodies, update, hbt, hct, Body.of]
        · by_cases hba : b = a
          · simp [bodies, update, hba, hta.symm, hheap, Body.of]
          · simp [bodies, update, hba, hbt]

/-- `coroDispatch` takes the first coroutine off the ready list, changes links only, and
resumes it. -/
theorem coroDispatch_run (hlinked : Linked (links s.heap) s.readyHead s.readyTail (a :: ready))
    (hcurrent : s.current = none) (hheap : s.heap a = some c) :
    ∃ heap c', s.coroDispatch = contextResume
        { s with
            heap := heap, readyHead := ready.head?, readyTail := ready.getLast?
            current := some a } c'
      ∧ heap a = some c' ∧ Linked (links heap) ready.head? ready.getLast? ready
      ∧ bodies heap = bodies s.heap := by
  have hhead : s.readyHead = some a := hlinked.head_eq
  have hlink := hlinked.link_head
  simp only [links, hheap, Option.map_some, Option.some.injEq, Linked.Links.mk.injEq] at hlink
  obtain ⟨hprev, hnext⟩ := hlink
  cases ready with
  -- It was the only one: its links are null already, and so become head and tail.
  | nil =>
      have hnext' : c.next = none := hnext
      have htail : s.readyTail = some a := hlinked.tail_eq
      refine ⟨s.heap, c, ?_, hheap, .nil _, rfl⟩
      simp only [coroDispatch, hhead]
      rw [load_bind hheap, check_bind (by rw [hprev]; rfl)]
      simp only [hnext']
      rw [check_bind (by simp [htail])]
      show (check s.current.isNone >>= _) = _
      rw [check_bind (by rw [hcurrent]; rfl)]
      exact load_bind hheap _
  -- Two coroutines change: the next one becomes the head, the first one is cut off.
  | cons n rest =>
      have hnext' : c.next = some n := hnext
      have hna : a ≠ n := by
        intro h
        have hnodup := hlinked.nodup
        simp [h] at hnodup
      obtain ⟨l, hl⟩ := hlinked.chain.exists_links (a := n) (by simp)
      simp only [links, Option.map_eq_some_iff] at hl
      obtain ⟨cn, hcn, -⟩ := hl
      -- The tail stays the tail.
      have htail : s.readyTail = (n :: rest).getLast? := by
        rw [hlinked.tail_eq]
        exact List.getLast?_cons_cons
      refine ⟨update (update s.heap n (some { cn with prev := none })) a
        (some { c with next := none }), { c with next := none }, ?_, by simp [update], ?_, ?_⟩
      · have hheap' : (s.store n { cn with prev := none }).heap a = some c := by
          simp [store, update, hna, hheap]
        simp only [coroDispatch, hhead]
        rw [load_bind hheap, check_bind (by rw [hprev]; rfl)]
        simp only [hnext']
        rw [load_bind hcn, load_bind hheap']
        show (check s.current.isNone >>= _) = _
        rw [check_bind (by rw [hcurrent]; rfl)]
        rw [load_bind (c := { c with next := none }) (by simp [store, update]), hnext', ← htail]
        rfl
      · refine hlinked.pop (fun y hy => ?_) fun b hb => ?_
        · rw [← Option.some.inj hy]
          exact ⟨⟨cn.prev, cn.next⟩, by simp [links, hcn], by simp [links, update, hna.symm]⟩
        · have hnodup := hlinked.nodup
          simp only [List.nodup_cons, List.mem_cons, not_or] at hnodup
          have hba : b ≠ a := fun h => hnodup.1.2 (h ▸ hb)
          have hbn : b ≠ n := fun h => hnodup.2.1 (h ▸ hb)
          simp [links, update, hba, hbn]
      · funext b
        by_cases hba : b = a
        · simp [bodies, update, hba, hheap, Body.of]
        · by_cases hbn : b = n
          · simp [bodies, update, hbn, hna.symm, hcn, Body.of]
          · simp [bodies, update, hba, hbn]

end Operations

/-! ### One step -/

section Step

variable {s : Scheduler} {ready : List CoroAddr} {a : CoroAddr} {b : Body}

/-- Writing a coroutine changes its body and no other one. -/
theorem bodies_update (heap : CoroAddr → Option Coro) (a : CoroAddr) (c : Option Coro)
    (a' : CoroAddr) :
    bodies (update heap a c) a' = if a' = a then c.map Body.of else bodies heap a' := by
  by_cases h : a' = a <;> simp [bodies, update, h]

/-- The stack of a coroutine is that of its body. -/
theorem stackAt_of_body {heap : CoroAddr → Option Coro} (h : bodies heap a = some b) :
    stackAt heap a = b.stack := by
  simp [stackAt, h]

/-- The stacks of coroutines that stay as they are. -/
theorem map_stackAt_congr {heap heap' : CoroAddr → Option Coro} {xs : List CoroAddr}
    (h : ∀ a ∈ xs, bodies heap' a = bodies heap a) :
    xs.map (stackAt heap') = xs.map (stackAt heap) := by
  refine List.map_congr_left fun a ha => ?_
  simp only [stackAt, h a ha]

/-- A body is that of a coroutine in memory. -/
theorem exists_of_body {heap : CoroAddr → Option Coro} (h : bodies heap a = some b) :
    ∃ c, heap a = some c ∧ Body.of c = b := by
  simpa only [bodies, Option.map_eq_some_iff] using h

namespace Table

variable {coros coros' : CoroAddr → Option Body} {place place' : CoroAddr → Phase → Prop}
  {stackCount stackCount' : Nat} {mapped mapped' : StackId → Bool}
  {phase phase' : StackId → Option Phase}
  {stack : StackId}

/-- A coroutine has one place. -/
theorem place_unique (h : Table coros place stackCount mapped phase) {p p' : Phase}
    (hp : place a p) (hp' : place a p') : p = p' := by
  obtain ⟨b, hb, hphase⟩ := h.placed a p hp
  obtain ⟨b', hb', hphase'⟩ := h.placed a p' hp'
  have hsame : b = b' := Option.some.inj (hb.symm.trans hb')
  rw [← hsame, hphase] at hphase'
  exact Option.some.inj hphase'

/-- The stack of a coroutine is its own. -/
theorem stack_iff (h : Table coros place stackCount mapped phase) (hb : coros a = some b)
    {a' : CoroAddr} {b' : Body} (hb' : coros a' = some b') : b'.stack = b.stack ↔ a' = a := by
  constructor
  · exact h.distinct a' a b' b hb' hb
  · intro heq
    rw [heq, hb] at hb'
    rw [Option.some.inj hb']

/-- One coroutine moves: it gets a place, with the phase that belongs to it, or is freed.
Nothing else changes. Its stack may be the next one that is created. -/
theorem move (h : Table coros place stackCount mapped phase) (a : CoroAddr) (stack : StackId)
    (hown : ∀ a' b, coros a' = some b → (b.stack = stack ↔ a' = a))
    (hcoros : ∀ a', a' ≠ a → coros' a' = coros a')
    (hplace : ∀ a', a' ≠ a → ∀ p, place' a' p ↔ place a' p)
    (hmapped : ∀ stack', stack' ≠ stack → mapped' stack' = mapped stack')
    (hphase : ∀ stack', stack' ≠ stack → phase' stack' = phase stack')
    (hstacks : (stackCount' = stackCount ∧ stack < stackCount)
      ∨ (stackCount' = stackCount + 1 ∧ stack = stackCount))
    (hmoved : (∃ b p, coros' a = some b ∧ b.stack = stack ∧ mapped' stack = true
        ∧ phase' stack = some p ∧ (∀ p', place' a p' ↔ p' = p) ∧ (p = .ready → b.Resumable a))
      ∨ (coros' a = none ∧ phase' stack = some .released ∧ ∀ p', ¬ place' a p')) :
    Table coros' place' stackCount' mapped' phase' := by
  have hne : ∀ {a' b}, a' ≠ a → coros a' = some b → b.stack ≠ stack :=
    fun ha' hb hstack => ha' ((hown _ _ hb).mp hstack)
  -- At most one stack is created, and then it is that of the coroutine that moves.
  have hgrow : stackCount ≤ stackCount' := by
    rcases hstacks with ⟨heq, -⟩ | ⟨heq, -⟩
    · exact Nat.le_of_eq heq.symm
    · exact heq ▸ Nat.le_succ stackCount
  have hlt₀ : stack < stackCount' := by
    rcases hstacks with ⟨heq, hlt⟩ | ⟨heq, hstack⟩
    · exact heq ▸ hlt
    · exact heq ▸ hstack ▸ Nat.lt_succ_self stackCount
  have hcover : ∀ stack', stack' < stackCount' → stack' ≠ stack → stack' < stackCount := by
    intro stack' hlt hstack'
    rcases hstacks with ⟨heq, -⟩ | ⟨heq, hstack⟩
    · exact heq ▸ hlt
    · rw [heq] at hlt
      exact Nat.lt_of_le_of_ne (Nat.le_of_lt_succ hlt) fun h => hstack' (h.trans hstack.symm)
  -- For the coroutine that moves everything is in `hmoved`. Nothing changes for the others,
  -- as they have other stacks.
  constructor
  case placed =>
    intro a' p hp
    by_cases ha' : a' = a
    · rw [ha'] at hp ⊢
      rcases hmoved with ⟨b, p₀, hb, hstack, -, hphase₀, hplace₀, -⟩ | ⟨-, -, hplace₀⟩
      · rw [(hplace₀ p).mp hp]
        exact ⟨b, hb, by rw [hstack, hphase₀]⟩
      · exact absurd hp (hplace₀ p)
    · obtain ⟨b, hb, hp⟩ := h.placed a' p ((hplace a' ha' p).mp hp)
      exact ⟨b, by rw [hcoros a' ha', hb], by rw [hphase _ (hne ha' hb), hp]⟩
  case live =>
    intro a' b hb
    by_cases ha' : a' = a
    · rw [ha'] at hb ⊢
      rcases hmoved with ⟨b₀, p, hb₀, hstack, hmapped₀, -, hplace₀, -⟩ | ⟨hnone, -, -⟩
      · rw [hb₀, Option.some.injEq] at hb
        rw [← hb, hstack]
        exact ⟨hlt₀, hmapped₀, p, (hplace₀ p).mpr rfl⟩
      · rw [hnone] at hb
        cases hb
    · rw [hcoros a' ha'] at hb
      obtain ⟨hlt, hmapped₀, p, hp⟩ := h.live a' b hb
      exact ⟨Nat.lt_of_lt_of_le hlt hgrow, by rw [hmapped _ (hne ha' hb), hmapped₀], p,
        (hplace a' ha' p).mpr hp⟩
  case resumable =>
    intro a' b hready hb
    by_cases ha' : a' = a
    · rw [ha'] at hb hready ⊢
      rcases hmoved with ⟨b₀, p, hb₀, -, -, -, hplace₀, hresumable⟩ | ⟨-, -, hplace₀⟩
      · rw [hb₀, Option.some.injEq] at hb
        rw [← hb]
        exact hresumable ((hplace₀ _).mp hready).symm
      · exact absurd hready (hplace₀ _)
    · rw [hcoros a' ha'] at hb
      exact h.resumable a' b ((hplace a' ha' _).mp hready) hb
  case distinct =>
    intro a₁ a₂ b₁ b₂ hb₁ hb₂ hstack
    -- The coroutine that moves has its stack, and no other one does.
    have hmine : ∀ {b}, coros' a = some b → b.stack = stack := by
      intro b hb
      rcases hmoved with ⟨b₀, p, hb₀, hstack₀, -⟩ | ⟨hnone, -, -⟩
      · rw [hb₀, Option.some.injEq] at hb
        rw [← hb, hstack₀]
      · rw [hnone] at hb
        cases hb
    by_cases h₁ : a₁ = a <;> by_cases h₂ : a₂ = a
    · rw [h₁, h₂]
    · rw [h₁] at hb₁
      rw [hcoros a₂ h₂] at hb₂
      exact absurd (hstack.symm.trans (hmine hb₁)) (hne h₂ hb₂)
    · rw [h₂] at hb₂
      rw [hcoros a₁ h₁] at hb₁
      exact absurd (hstack.trans (hmine hb₂)) (hne h₁ hb₁)
    · rw [hcoros a₁ h₁] at hb₁
      rw [hcoros a₂ h₂] at hb₂
      exact h.distinct a₁ a₂ b₁ b₂ hb₁ hb₂ hstack
  case unborn =>
    intro stack' hle
    rw [hphase stack' (Nat.ne_of_gt (Nat.lt_of_lt_of_le hlt₀ hle))]
    exact h.unborn stack' (Nat.le_trans hgrow hle)
  case dead =>
    intro stack' hlt
    by_cases heq : stack' = stack
    · rcases hmoved with ⟨b, p, hb, hstack, -⟩ | ⟨-, hreleased, -⟩
      · exact Or.inl ⟨a, b, hb, by rw [hstack, heq]⟩
      · exact Or.inr (by rw [heq, hreleased])
    · rcases h.dead stack' (hcover stack' hlt heq) with ⟨a', b, hb, hstack⟩ | hreleased
      · have ha' : a' ≠ a := fun ha' => heq (hstack.symm.trans ((hown a' b hb).mpr ha'))
        exact Or.inl ⟨a', b, by rw [hcoros a' ha', hb], hstack⟩
      · exact Or.inr (by rw [hphase stack' heq, hreleased])

end Table

/-- The place of a coroutine and its phase belong together: it waits, runs or is gone. -/
theorem place_iff {current cleanup : Option CoroAddr} {p : Phase} :
    Place ready current cleanup a p
      ↔ (a ∈ ready ∧ p = .ready) ∨ (current = some a ∧ p = .running)
        ∨ (cleanup = some a ∧ p = .gone) := by
  constructor
  · rintro (h | h | h)
    · exact Or.inl ⟨h, rfl⟩
    · exact Or.inr (Or.inl ⟨h, rfl⟩)
    · exact Or.inr (Or.inr ⟨h, rfl⟩)
  · rintro (⟨h, rfl⟩ | ⟨h, rfl⟩ | ⟨h, rfl⟩)
    · exact .ready h
    · exact .current h
    · exact .cleanup h

namespace Inv

/-- A coroutine on the ready list is in memory. -/
theorem body_of_ready (h : Inv s ready) (ha : a ∈ ready) : ∃ b, bodies s.heap a = some b :=
  (h.table.placed a _ (.ready ha)).imp fun _ hb => hb.1

/-- The one that runs is not on the ready list. -/
theorem not_mem_ready (h : Inv s ready) (hcurrent : s.current = some a) : a ∉ ready := by
  intro ha
  have hp := h.table.place_unique (.ready ha) (.current hcurrent)
  cases hp

end Inv

/-- `spawn` makes a coroutine and queues it. -/
theorem inv_spawn (h : Inv s ready) (hfree : s.heap a = none) (hworker : s.control ≠ .worker)
    (hreturned : s.control ≠ .returned) (fn : Nat) (memory : Coro) :
    ∃ s', s.spawn fn a memory = .ok s' ∧ Effect s ready (.spawn fn a memory) s' (ready ++ [a])
      ∧ Inv s' (ready ++ [a]) := by
  have hnone : bodies s.heap a = none := by simp [bodies, hfree]
  have hfresh : a ∉ ready := by
    intro ha
    obtain ⟨b, hb⟩ := h.body_of_ready ha
    rw [hnone] at hb
    cases hb
  let c : Coro :=
    { memory with
        fn := fn, stackSize := 64 * 1024, stack := s.stackCount
        context := some { stack := s.stackCount, point := .entry } }
  let s₁ : Scheduler :=
    { s with
        heap := update s.heap a (some c), stackCount := s.stackCount + 1
        mapped := update s.mapped s.stackCount true, log := s.log ++ [(.spawned, s.stackCount)] }
  -- The address is free, so the list does not go through it.
  have hlinked : Linked (links s₁.heap) s₁.readyHead s₁.readyTail ready := by
    refine h.linked.frame fun a' ha' => ?_
    have hne : a' ≠ a := fun heq => hfresh (heq ▸ ha')
    simp [links, s₁, update, hne]
  obtain ⟨heap, hrun, hlinked', hbodies⟩ :=
    coroQueue_run (s := s₁) (c := c) hlinked hfresh (by simp [s₁, update])
  have hcoros : ∀ a', a' ≠ a → bodies heap a' = bodies s.heap a' := by
    intro a' ha'
    rw [hbodies]
    exact (bodies_update s.heap a (some c) a').trans (if_neg ha')
  have hcoro : bodies heap a = some ⟨some ⟨s.stackCount, .entry⟩, s.stackCount, fn⟩ := by
    rw [hbodies]
    exact (bodies_update s.heap a (some c) a).trans (if_pos rfl)
  have hkeep : ∀ {a' b}, bodies s.heap a' = some b → bodies heap a' = some b := by
    intro a' b hb
    have hne : a' ≠ a := fun heq => by rw [heq, hnone] at hb; cases hb
    rw [hcoros a' hne, hb]
  refine ⟨_, hrun, .spawn hcoro hcoros rfl (List.append_assoc _ _ _), hlinked', ?_, ?_, ?_, ?_, ?_⟩
  · -- The new coroutine has the next stack, which nobody has had.
    refine h.table.move a s.stackCount ?_ hcoros ?_ ?_ ?_ (Or.inr ⟨rfl, rfl⟩) ?_
    · intro a' b hb
      constructor
      · intro heq
        exact absurd heq (Nat.ne_of_lt (h.table.live a' b hb).1)
      · intro heq
        rw [heq, hnone] at hb
        cases hb
    · intro a' ha' p
      simp [place_iff, ha', s₁]
    · intro stack hne
      exact if_neg hne
    · intro stack hne
      show life (s.log ++ [(.spawned, s.stackCount)] ++ [(.queued, s.stackCount)]) stack = _
      rw [life_append_of_ne hne.symm, life_append_of_ne hne.symm]
    · refine Or.inl ⟨_, .ready, hcoro, rfl, if_pos rfl, ?_, ?_, fun _ => Or.inl rfl⟩
      · show life (s.log ++ [(.spawned, s.stackCount)] ++ [(.queued, s.stackCount)])
          s.stackCount = _
        rw [life_append_self, life_append_self,
          h.table.unborn s.stackCount (Nat.le_refl _)]
        rfl
      · intro p
        have hplace : ∀ p, ¬ Place ready s.current s.cleanup a p := by
          intro p hp
          obtain ⟨b, hb, -⟩ := h.table.placed a p hp
          rw [hnone] at hb
          cases hb
        have hcurrent : s.current ≠ some a := fun heq => hplace _ (.current heq)
        have hcleanup : s.cleanup ≠ some a := fun heq => hplace _ (.cleanup heq)
        simp [place_iff, s₁, hcurrent, hcleanup]
  -- It can be spawned from the program and from a coroutine.
  · rcases h.control with ⟨hc, hcurrent, hcleanup⟩ | ⟨hc, -, -⟩
      | ⟨hc, hb, hcurrent, hcleanup, hw⟩ | ⟨hc, -, -, -⟩
    · exact .main hc hcurrent hcleanup
    · exact absurd hc hworker
    · exact .running hc (hkeep hb) hcurrent hcleanup hw
    · exact absurd hc hreturned
  · have hready : ready.map (stackAt heap) = ready.map (stackAt s.heap) :=
      map_stackAt_congr fun a' ha' => hcoros a' fun heq => hfresh (heq ▸ ha')
    show events .queued (s.log ++ [(.spawned, s.stackCount)] ++ [(.queued, s.stackCount)])
      = events .resumed (s.log ++ [(.spawned, s.stackCount)] ++ [(.queued, s.stackCount)])
        ++ (ready ++ [a]).map (stackAt heap)
    simp [h.fifo, hready, stackAt_of_body hcoro]
  · have hcleanup : s.cleanup.toList.map (stackAt heap)
        = s.cleanup.toList.map (stackAt s.heap) := by
      refine map_stackAt_congr fun a' ha' => hcoros a' fun heq => ?_
      obtain ⟨b, hb, -⟩ := h.table.placed a' _ (.cleanup (Option.mem_toList.mp ha'))
      rw [heq, hnone] at hb
      cases hb
    show events .finished (s.log ++ [(.spawned, s.stackCount)] ++ [(.queued, s.stackCount)])
      = events .released (s.log ++ [(.spawned, s.stackCount)] ++ [(.queued, s.stackCount)])
        ++ s.cleanup.toList.map (stackAt heap)
    rw [hcleanup]
    simpa using h.finished
  · show events .spawned (s.log ++ [(.spawned, s.stackCount)] ++ [(.queued, s.stackCount)])
      = List.range (s.stackCount + 1)
    simp [h.spawned, List.range_succ]

/-- The running coroutine is the current one. -/
theorem Inv.running (h : Inv s ready) {stack : StackId} (hc : s.control = .running a stack) :
    ∃ b, bodies s.heap a = some b ∧ b.stack = stack ∧ s.current = some a ∧ s.cleanup = none
      ∧ s.worker = true := by
  rcases h.control with ⟨hc', -, -⟩ | ⟨hc', -, -⟩ | ⟨hc', hb, hcurrent, hcleanup, hw⟩
    | ⟨hc', -, -, -⟩
  · rw [hc] at hc'
    cases hc'
  · rw [hc] at hc'
    cases hc'
  · rw [hc, Control.running.injEq] at hc'
    obtain ⟨rfl, rfl⟩ := hc'
    exact ⟨_, hb, rfl, hcurrent, hcleanup, hw⟩
  · rw [hc] at hc'
    cases hc'

/-- No coroutine is current while the worker runs. -/
theorem Inv.worker (h : Inv s ready) (hc : s.control = .worker) :
    s.current = none ∧ s.worker = true := by
  rcases h.control with ⟨hc', -, -⟩ | ⟨-, hcurrent, hw⟩ | ⟨hc', -, -, -, -⟩ | ⟨hc', -, -, -⟩
  · rw [hc] at hc'
    cases hc'
  · exact ⟨hcurrent, hw⟩
  · rw [hc] at hc'
    cases hc'
  · rw [hc] at hc'
    cases hc'

/-- `yield` queues the running coroutine, and it goes on where it was. -/
theorem inv_yield (h : Inv s ready) {stack : StackId} (hc : s.control = .running a stack) :
    ∃ s', s.yield a stack = .ok s' ∧ Effect s ready .yield s' (ready ++ [a])
      ∧ Inv s' (ready ++ [a]) := by
  obtain ⟨b, hb, hstack, hcurrent, hcleanup, hworker⟩ := h.running hc
  obtain ⟨c, hheap, hcb⟩ := exists_of_body hb
  have hcstack : c.stack = stack := by rw [← hstack, ← hcb]; rfl
  have hfresh : a ∉ ready := h.not_mem_ready hcurrent
  obtain ⟨heap, hrun, hlinked, hbodies⟩ := coroQueue_run h.linked hfresh hheap
  rw [hcstack] at hrun
  obtain ⟨c', hheap', hcb'⟩ := exists_of_body (hbodies ▸ hb : bodies heap a = some b)
  have hcstack' : c'.stack = stack := by rw [← hstack, ← hcb']; rfl
  let heap' := update heap a (some { c' with context := some ⟨stack, .yielded a⟩ })
  -- `coroQueue` puts it at the end of the list, and `coroReturn` switches to the worker.
  have hyield : s.yield a stack = .ok
      { s with
          heap := heap', readyHead := s.readyHead.or (some a), readyTail := some a
          current := none, control := .worker
          log := s.log ++ [(.queued, stack)] ++ [(.left, stack)] } := by
    simp only [yield, hcurrent]
    rw [check_bind (rfl : (some a).isSome = true), hrun]
    show (load _ a >>= _) = _
    rw [load_bind hheap']
    exact if_pos hworker
  have hcoros : ∀ a', a' ≠ a → bodies heap' a' = bodies s.heap a' := by
    intro a' ha'
    rw [bodies_update, if_neg ha', hbodies]
  have hcoro : bodies heap' a = some { b with context := some ⟨stack, .yielded a⟩ } := by
    rw [bodies_update, if_pos rfl, ← hcb']
    rfl
  obtain ⟨b', hb', hphase⟩ := h.table.placed a _ (.current hcurrent)
  have hrunning : life s.log stack = some .running := by
    rw [← hstack, ← hphase, Option.some.inj (hb.symm.trans hb')]
  refine ⟨_, hyield, .yield hc hb hcoro hcoros rfl (List.append_assoc _ _ _),
    ?_, ?_, .worker rfl rfl hworker, ?_, ?_, ?_⟩
  · refine hlinked.frame fun a' _ => ?_
    by_cases ha' : a' = a
    · simp [links, heap', update, ha', hheap']
    · simp [links, heap', update, ha']
  -- It moves from `current` to the ready list.
  · have hlt : stack < s.stackCount := hstack ▸ (h.table.live a b hb).1
    refine h.table.move a stack ?_ hcoros ?_ (fun _ _ => rfl) ?_
      (Or.inl ⟨rfl, hlt⟩) ?_
    · intro a' b₁ hb₁
      rw [← hstack]
      exact h.table.stack_iff hb hb₁
    · intro a' ha' p
      have hne : s.current ≠ some a' := fun heq => ha' (Option.some.inj (heq.symm.trans hcurrent))
      simp [place_iff, ha', hne]
    · intro stack' hne
      rw [life_append_of_ne hne.symm, life_append_of_ne hne.symm]
    · refine Or.inl ⟨_, .ready, hcoro, hstack, hstack ▸ (h.table.live a b hb).2.1, ?_, ?_,
        fun _ => Or.inr (by rw [hstack])⟩
      · rw [life_append_self, life_append_self, hrunning]
        rfl
      · intro p
        simp [place_iff, hcleanup]
  · have hready : ready.map (stackAt heap') = ready.map (stackAt s.heap) :=
      map_stackAt_congr fun a' ha' => hcoros a' fun heq => hfresh (heq ▸ ha')
    simp [h.fifo, hready, stackAt_of_body hcoro, hstack]
  · have hold := h.finished
    rw [hcleanup] at hold ⊢
    simpa using hold
  · simpa using h.spawned

/-- When its function returns, the running coroutine is left to the worker to free. -/
theorem inv_finish (h : Inv s ready) {stack : StackId} (hc : s.control = .running a stack) :
    ∃ s', s.coroEntry a stack = .ok s' ∧ Effect s ready .finish s' ready ∧ Inv s' ready := by
  obtain ⟨b, hb, hstack, hcurrent, hcleanup, hworker⟩ := h.running hc
  have hfresh : a ∉ ready := h.not_mem_ready hcurrent
  have hfinish : s.coroEntry a stack = .ok
      { s with
          current := none, cleanup := some a, control := .worker
          log := s.log ++ [(.finished, stack)] ++ [(.left, stack)] } := by
    simp only [coroEntry, record]
    rw [check_bind (by rw [hcleanup]; rfl)]
    exact if_pos hworker
  obtain ⟨b', hb', hphase⟩ := h.table.placed a _ (.current hcurrent)
  have hrunning : life s.log stack = some .running := by
    rw [← hstack, ← hphase, Option.some.inj (hb.symm.trans hb')]
  refine ⟨_, hfinish, .finish hc rfl rfl rfl (List.append_assoc _ _ _), h.linked, ?_,
    .worker rfl rfl hworker, ?_, ?_, ?_⟩
  -- It moves from `current` to `cleanup`, and stays in memory.
  · have hlt : stack < s.stackCount := hstack ▸ (h.table.live a b hb).1
    refine h.table.move a stack ?_ (fun _ _ => rfl) ?_ (fun _ _ => rfl) ?_
      (Or.inl ⟨rfl, hlt⟩) ?_
    · intro a' b₁ hb₁
      rw [← hstack]
      exact h.table.stack_iff hb hb₁
    · intro a' ha' p
      have hne : s.current ≠ some a' := fun heq => ha' (Option.some.inj (heq.symm.trans hcurrent))
      simp [place_iff, hne, hcleanup, Ne.symm ha']
    · intro stack' hne
      rw [life_append_of_ne hne.symm, life_append_of_ne hne.symm]
    · refine Or.inl ⟨b, .gone, hb, hstack, hstack ▸ (h.table.live a b hb).2.1, ?_, ?_, ?_⟩
      · rw [life_append_self, life_append_self, hrunning]
        rfl
      · intro p
        simp [place_iff, hfresh]
      · intro hp
        cases hp
  · simpa using h.fifo
  · have hold := h.finished
    rw [hcleanup] at hold
    simp at hold
    simp [hold, stackAt_of_body hb, hstack]
  · simpa using h.spawned

/-- The worker frees the coroutine that has finished. -/
theorem inv_release (h : Inv s ready) (hc : s.control = .worker) (hcleanup : s.cleanup = some a) :
    ∃ c s', s.load a = .ok c ∧ s.stackDestroy c.stack = .ok s'
      ∧ s'.log = s.log ++ s.releases ∧ s'.heap = s.heap ∧ s'.control = .worker
      ∧ Inv { s' with heap := update s'.heap a none, cleanup := none } ready := by
  obtain ⟨b, hb, hgone⟩ := h.table.placed a _ (.cleanup hcleanup)
  obtain ⟨c, hheap, hcb⟩ := exists_of_body hb
  have hstack : c.stack = b.stack := by rw [← hcb]; rfl
  have hfresh : a ∉ ready := by
    intro ha
    have hp := h.table.place_unique (.ready ha) (.cleanup hcleanup)
    cases hp
  obtain ⟨hlt, hmapped, -⟩ := h.table.live a b hb
  obtain ⟨hcurrent, hworker⟩ := h.worker hc
  refine ⟨c, { s.record .released c.stack with mapped := update s.mapped c.stack false }, ?_, ?_,
    ?_, rfl, hc, ?_, ?_, .worker hc hcurrent hworker, ?_, ?_, ?_⟩
  · simp [load, hheap]
  · simp [stackDestroy, hstack, hmapped, hc]
    rfl
  · simp [record, releases, hcleanup, stackAt_of_body hb, hstack]
  -- A coroutine in `cleanup` is not in the list, so freeing it changes no link.
  · refine h.linked.frame fun a' ha' => ?_
    have hne : a' ≠ a := fun heq => hfresh (heq ▸ ha')
    simp [links, update, record, hne]
  -- It is freed, and its stack comes to the end of its life.
  · refine h.table.move a b.stack ?_ ?_ ?_ ?_ ?_ (Or.inl ⟨rfl, hlt⟩) ?_
    · intro a' b₁ hb₁
      exact h.table.stack_iff hb hb₁
    · intro a' ha'
      exact (bodies_update s.heap a none a').trans (if_neg ha')
    · intro a' ha' p
      have hne : s.cleanup ≠ some a' := fun heq => ha' (Option.some.inj (heq.symm.trans hcleanup))
      simp [place_iff, record, hne]
    · intro stack' hne
      rw [hstack]
      exact if_neg hne
    · intro stack' hne
      rw [hstack]
      exact life_append_of_ne hne.symm
    · refine Or.inr ⟨(bodies_update s.heap a none a).trans (if_pos rfl), ?_, ?_⟩
      · rw [hstack]
        refine life_append_self.trans ?_
        rw [hgone]
        rfl
      · intro p
        simp [place_iff, record, hfresh, hcurrent]
  · have hready : ready.map (stackAt (update s.heap a none)) = ready.map (stackAt s.heap) :=
      map_stackAt_congr fun a' ha' =>
        (bodies_update s.heap a none a').trans (if_neg fun (heq : a' = a) => hfresh (heq ▸ ha'))
    simp [record, h.fifo, hready]
  · have hold := h.finished
    rw [hcleanup] at hold
    simp [record, hold, stackAt_of_body hb, hstack]
  · simpa [record] using h.spawned

/-- The end of `schedulerRun`, if there was no switch in `coroDispatch`. -/
def returnUnlessSwitched (s : Scheduler) : Scheduler :=
  if s.control = .worker then { s with control := .returned } else s

/-- The worker resumes the first coroutine of the ready list, or returns. -/
theorem inv_dispatch (h : Inv s ready) (hc : s.control = .worker) (hcleanup : s.cleanup = none) :
    ∃ s₁ ready', s.coroDispatch = .ok s₁
      ∧ Effect s ready .dispatch s₁.returnUnlessSwitched ready'
      ∧ Inv s₁.returnUnlessSwitched ready' := by
  obtain ⟨hcurrent, hworker⟩ := h.worker hc
  cases ready with
  -- Nothing is ready: the worker leaves its loop.
  | nil =>
      have hhead : s.readyHead = none := h.linked.head_eq
      have hrun : s.coroDispatch = .ok s := by
        simp only [coroDispatch, hhead]
        rfl
      refine ⟨s, [], hrun, ?_⟩
      rw [returnUnlessSwitched, if_pos hc]
      exact ⟨.return rfl (fun a => by simp [hcleanup]) hcleanup rfl (by simp [releases, hcleanup]),
        h.linked, h.table, .returned rfl hcurrent hcleanup rfl, h.fifo, h.finished, h.spawned⟩
  | cons a rest =>
      obtain ⟨b, hb⟩ := h.body_of_ready List.mem_cons_self
      obtain ⟨c, hheap, hcb⟩ := exists_of_body hb
      obtain ⟨heap, c', hrun, hheap', hlinked, hbodies⟩ := coroDispatch_run h.linked hcurrent hheap
      have hb' : bodies heap a = some b := by rw [hbodies, hb]
      have hcb' : Body.of c' = b := by
        simp only [bodies, hheap', Option.map_some, Option.some.injEq] at hb'
        exact hb'
      have hstack : c'.stack = b.stack := by rw [← hcb']; rfl
      have hcontext : c'.context = b.context := by rw [← hcb']; rfl
      obtain ⟨hlt, hmapped, -⟩ := h.table.live a b hb
      have hfresh : a ∉ rest := (List.nodup_cons.mp h.linked.nodup).1
      have hready : life s.log b.stack = some .ready := by
        obtain ⟨b₁, hb₁, hlife⟩ := h.table.placed a _ (.ready List.mem_cons_self)
        rw [← hlife, Option.some.inj (hb.symm.trans hb₁)]
      let s' : Scheduler :=
        { s with
            heap := heap, readyHead := rest.head?, readyTail := rest.getLast?, current := some a
            control := .running a b.stack, log := s.log ++ [(.resumed, b.stack)] }
      have hresume : s.coroDispatch = .ok s' := by
        rw [hrun]
        -- Both kinds of context go on in the coroutine itself, on its own stack.
        rcases h.table.resumable a b (.ready List.mem_cons_self) hb with hentry | hyielded
        · simp [contextResume, record, hcontext, hentry, hstack, hmapped, s']
          rfl
        · simp [contextResume, record, hcontext, hyielded, hstack, hmapped, s']
          rfl
      refine ⟨s', rest, hresume, ?_⟩
      rw [returnUnlessSwitched, if_neg (by simp [s'])]
      refine ⟨.resume rfl hb (fun a => by simp [hcleanup, s', hbodies]) hcleanup rfl
        (by simp [s', releases, hcleanup]), hlinked, ?_, .running rfl hb' rfl hcleanup hworker,
        ?_, ?_, ?_⟩
      -- It moves from the ready list to `current`.
      · refine h.table.move a b.stack ?_ (fun a' _ => by rw [hbodies]) ?_
          (fun _ _ => rfl) ?_ (Or.inl ⟨rfl, hlt⟩) ?_
        · intro a' b₁ hb₁
          exact h.table.stack_iff hb hb₁
        · intro a' ha' p
          simp [place_iff, s', hcurrent, hcleanup, ha', Ne.symm ha']
        · intro stack' hne
          exact life_append_of_ne hne.symm
        · refine Or.inl ⟨b, .running, hb', rfl, hmapped, ?_, ?_, ?_⟩
          · refine life_append_self.trans ?_
            rw [hready]
            rfl
          · intro p
            simp [place_iff, s', hcleanup, hfresh]
          · intro hp
            cases hp
      · have hrest : rest.map (stackAt heap) = rest.map (stackAt s.heap) :=
          map_stackAt_congr fun a' _ => by rw [hbodies]
        have hfifo := h.fifo
        rw [List.map_cons, stackAt_of_body hb] at hfifo
        show events .queued (s.log ++ [(.resumed, b.stack)])
          = events .resumed (s.log ++ [(.resumed, b.stack)]) ++ rest.map (stackAt heap)
        simp [hfifo, hrest]
      · have hold := h.finished
        rw [hcleanup] at hold
        show events .finished (s.log ++ [(.resumed, b.stack)])
          = events .released (s.log ++ [(.resumed, b.stack)])
            ++ s.cleanup.toList.map (stackAt heap)
        rw [hcleanup]
        simpa using hold
      · show events .spawned (s.log ++ [(.resumed, b.stack)]) = List.range s.stackCount
        simpa using h.spawned

/-- The release before a dispatch is a part of it. -/
theorem Effect.of_release {s₁ s' : Scheduler} {ready' : List CoroAddr}
    (hcleanup : s.cleanup = some a) (hlog : s₁.log = s.log ++ s.releases)
    (hheap : s₁.heap = update s.heap a none) (hclean : s₁.cleanup = none)
    (h : Effect s₁ ready .dispatch s' ready') : Effect s ready .dispatch s' ready' := by
  have hreleases : s₁.releases = [] := by rw [releases, hclean]; rfl
  have hbodies : ∀ a', bodies s₁.heap a' =
      if s.cleanup = some a' then none else bodies s.heap a' := by
    intro a'
    rw [hheap, bodies_update, hcleanup]
    by_cases ha : a' = a
    · rw [if_pos ha, if_pos (by rw [ha])]
      rfl
    · rw [if_neg ha, if_neg fun heq => ha (Option.some.inj heq).symm]
  cases h with
  | resume first body heap cleanup control log =>
      have hheap' : ∀ a', bodies s'.heap a' =
          if s.cleanup = some a' then none else bodies s.heap a' := fun a' => by
        rw [heap, hclean, if_neg (fun h => nomatch h), hbodies]
      refine .resume first ?_ hheap' cleanup control ?_
      · rw [hbodies] at body
        split at body
        · cases body
        · exact body
      · rw [log, hlog, hreleases, List.append_nil]
  | «return» empty heap cleanup control log =>
      refine .return empty (fun a' => ?_) cleanup control ?_
      · rw [heap, hclean, if_neg (fun h => nomatch h), hbodies]
      · rw [log, hlog, hreleases, List.append_nil]

/-- **The step.** What is enabled in a state with the invariant does not crash, does what it
should, and leads to a state with the invariant. -/
theorem inv_step (h : Inv s ready) {action : Action} (henabled : s.Enabled action) :
    ∃ s' ready', s.step action = .ok s' ∧ Effect s ready action s' ready' ∧ Inv s' ready' := by
  cases action with
  | spawn fn coro memory =>
      obtain ⟨hfree, hworker, hreturned⟩ := henabled
      obtain ⟨s', hrun, hstep⟩ := inv_spawn h hfree hworker hreturned fn memory
      exact ⟨s', _, hrun, hstep⟩
  | run =>
      have hc : s.control = .main := henabled
      have hglobals : s.current = none ∧ s.cleanup = none := by
        rcases h.control with ⟨-, hcurrent, hcleanup⟩ | ⟨hc', -, -⟩ | ⟨hc', -, -, -, -⟩
          | ⟨hc', -, -, -⟩
        · exact ⟨hcurrent, hcleanup⟩
        · rw [hc] at hc'
          cases hc'
        · rw [hc] at hc'
          cases hc'
        · rw [hc] at hc'
          cases hc'
      exact ⟨_, ready, rfl, .run rfl rfl rfl, h.linked, h.table, .worker rfl hglobals.1 rfl,
        h.fifo, h.finished, h.spawned⟩
  | yield =>
      obtain ⟨coro, stack, hc⟩ := henabled
      obtain ⟨s', hrun, hstep⟩ := inv_yield h hc
      exact ⟨s', _, by simp only [step, hc]; exact hrun, hstep⟩
  | finish =>
      obtain ⟨coro, stack, hc⟩ := henabled
      obtain ⟨s', hrun, hstep⟩ := inv_finish h hc
      exact ⟨s', _, by simp only [step, hc]; exact hrun, hstep⟩
  | dispatch =>
      have hc : s.control = .worker := henabled
      cases hcleanup : s.cleanup with
      -- Nothing to clean up, so the worker dispatches at once.
      | none =>
          obtain ⟨s₁, ready', hrun, hstep⟩ := inv_dispatch h hc hcleanup
          refine ⟨_, ready', ?_, hstep⟩
          simp only [step, schedulerLoop, hcleanup]
          show (s.coroDispatch >>= _) = _
          rw [hrun]
          exact (apply_ite pure _ _ _).symm
      -- The one that has finished is freed first.
      | some a =>
          obtain ⟨c, s₁, hload, hdestroy, hlog, hheap, hc₁, hinv₁⟩ := inv_release h hc hcleanup
          obtain ⟨s₂, ready', hrun, heffect, hinv⟩ := inv_dispatch hinv₁ hc₁ rfl
          refine ⟨_, ready', ?released, Effect.of_release hcleanup ?log ?heap ?clean heffect, hinv⟩
          case log => exact hlog
          case heap => exact congrArg (update · a none) hheap
          case clean => rfl
          case released =>
            simp only [step, schedulerLoop, hcleanup]
            rw [hload]
            show (s.stackDestroy c.stack >>= _) = _
            rw [hdestroy]
            show (coroDispatch _ >>= _) = _
            rw [hrun]
            exact (apply_ite pure _ _ _).symm

end Step

/-! ### What a life says -/

section Life

variable {log : List (CoroEvent × StackId)} {stack : StackId}

/-- The return of the function and the release of the stack are in a life once each, when
the phase says so. -/
theorem count_phaseAfter {phase : Phase} (h : phaseAfter log = some phase) :
    (log.map Prod.fst).count .finished
        = (if phase = .ended ∨ phase = .gone ∨ phase = .released then 1 else 0)
      ∧ (log.map Prod.fst).count .released = if phase = .released then 1 else 0 := by
  induction log using List.reverseRecOn generalizing phase with
  | nil =>
      cases h
      exact ⟨rfl, rfl⟩
  | append_singleton log e ih =>
      obtain ⟨before, hbefore, hnext⟩ : ∃ before, phaseAfter log = some before
          ∧ before.next e.1 = some phase := by
        simp only [phaseAfter, List.foldlM_append, List.foldlM_cons, List.foldlM_nil,
          Option.bind_eq_bind, Option.bind_eq_some_iff] at h
        obtain ⟨before, hbefore, after, hafter, hphase⟩ := h
        cases hphase
        exact ⟨before, hbefore, hafter⟩
      obtain ⟨hfinished, hreleased⟩ := ih hbefore
      rw [List.map_append, List.count_append, List.count_append, hfinished, hreleased,
        List.map_cons, List.map_nil]
      -- Each of the phases and events is a case of the automaton.
      generalize e.1 = event at hnext ⊢
      cases before <;> cases event <;> simp [Phase.next] at hnext <;> subst hnext <;> decide

/-- How often an event happened to a stack. -/
theorem count_events (event : CoroEvent) :
    (events event log).count stack
      = ((log.filter fun e => e.2 = stack).map Prod.fst).count event := by
  induction log with
  | nil => rfl
  | cons e log ih =>
      rcases e with ⟨event', stack'⟩
      rw [events_cons]
      by_cases hevent : event' = event <;> by_cases hstack : stack' = stack <;>
        simp [hevent, hstack, ih]

/-- A coroutine has finished exactly if its life is past its end. -/
theorem mem_events_finished {phase : Phase} (h : life log stack = some phase) :
    stack ∈ events .finished log ↔ phase = .ended ∨ phase = .gone ∨ phase = .released := by
  rw [← List.count_pos_iff, count_events, (count_phaseAfter h).1]
  split
  · next hphase => simp [hphase]
  · next hphase => simp [hphase]

/-- Its stack was released exactly if that is the last thing of its life. -/
theorem mem_events_released {phase : Phase} (h : life log stack = some phase) :
    stack ∈ events .released log ↔ phase = .released := by
  rw [← List.count_pos_iff, count_events, (count_phaseAfter h).2]
  split
  · next hphase => simp [hphase]
  · next hphase => simp [hphase]

/-- A stack is released at most once, as there is one such event in a life. -/
theorem nodup_released (h : ∀ stack, (life log stack).isSome) :
    (events .released log).Nodup := by
  refine List.nodup_iff_count_le_one.mpr fun stack => ?_
  obtain ⟨phase, hphase⟩ := Option.isSome_iff_exists.mp (h stack)
  rw [count_events, (count_phaseAfter hphase).2]
  split
  · exact Nat.le_refl 1
  · exact Nat.zero_le 1

end Life

/-! ### Every run -/

/-- What holds in every state of a run, with its ready list. -/
structure Sound (s : Scheduler) (ready : List CoroAddr) : Prop where
  /-- The links spell out the list, without duplicates, of coroutines that have not
  finished. -/
  linked : Linked (links s.heap) s.readyHead s.readyTail ready
  unfinished : ∀ a ∈ ready, ∃ c, s.heap a = some c ∧ life s.log c.stack = some .ready
    ∧ c.stack ∉ events .finished s.log
  /-- What was queued is what was resumed, in the same order, and then this list. -/
  fifo : events .queued s.log = events .resumed s.log ++ ready.map (stackAt s.heap)
  /-- Every stack that was created is that of one spawned coroutine, which has finished, is
  on the list, or is the running one. -/
  spawned : events .spawned s.log = List.range s.stackCount
  kept : ∀ stack < s.stackCount, stack ∈ events .finished s.log
    ∨ stack ∈ ready.map (stackAt s.heap) ∨ ∃ coro, s.control = .running coro stack
  /-- What happens to a coroutine may happen in this order. -/
  lives : ∀ stack, (life s.log stack).isSome
  /-- No stack is released twice, and of those that finished all are released but the one
  that the worker is about to release. -/
  once : (events .released s.log).Nodup
  finished : events .finished s.log
    = events .released s.log ++ s.cleanup.toList.map (stackAt s.heap)
  /-- Nothing runs on a stack that is released. -/
  running : ∀ coro stack, s.control = .running coro stack →
    s.mapped stack = true ∧ stack ∉ events .released s.log
  /-- When `schedulerRun` has returned every coroutine has finished and is released. -/
  returned : s.control = .returned → ∀ stack < s.stackCount,
    stack ∈ events .finished s.log ∧ stack ∈ events .released s.log

/-- Every stack has a life. -/
theorem Inv.lives {s : Scheduler} {ready : List CoroAddr} (h : Inv s ready) (stack : StackId) :
    (life s.log stack).isSome := by
  rcases Nat.lt_or_ge stack s.stackCount with hlt | hge
  · rcases h.table.dead stack hlt with ⟨a, b, hb, hstack⟩ | hreleased
    · obtain ⟨-, -, p, hplace⟩ := h.table.live a b hb
      obtain ⟨b', hb', hp⟩ := h.table.placed a p hplace
      rw [← hstack, Option.some.inj (hb.symm.trans hb'), hp]
      rfl
    · rw [hreleased]
      rfl
  · rw [h.table.unborn stack hge]
    rfl

/-- A coroutine that has not finished is on the ready list or is the running one. -/
theorem Inv.kept {s : Scheduler} {ready : List CoroAddr} (h : Inv s ready) {stack : StackId}
    (hlt : stack < s.stackCount) : stack ∈ events .finished s.log
      ∨ stack ∈ ready.map (stackAt s.heap) ∨ ∃ coro, s.control = .running coro stack := by
  rcases h.table.dead stack hlt with ⟨a, b, hb, hstack⟩ | hreleased
  · obtain ⟨-, -, p, hplace⟩ := h.table.live a b hb
    obtain ⟨b', hb', hlife⟩ := h.table.placed a p hplace
    rw [← Option.some.inj (hb.symm.trans hb'), hstack] at hlife
    cases hplace with
    | ready ha => exact .inr (.inl (List.mem_map.mpr ⟨a, ha, (stackAt_of_body hb).trans hstack⟩))
    | current hcurrent =>
        -- Only a running coroutine is current.
        rcases h.control with ⟨-, hnone, -⟩ | ⟨-, hnone, -⟩ | ⟨hc, hb'', hcurrent', -, -⟩
          | ⟨-, hnone, -, -⟩
        · rw [hcurrent] at hnone
          cases hnone
        · rw [hcurrent] at hnone
          cases hnone
        · obtain rfl := Option.some.inj (hcurrent.symm.trans hcurrent')
          obtain rfl := Option.some.inj (hb.symm.trans hb'')
          exact .inr (.inr ⟨a, hstack ▸ hc⟩)
        · rw [hcurrent] at hnone
          cases hnone
    | cleanup => exact .inl ((mem_events_finished hlife).mpr (.inr (.inl rfl)))
  · exact .inl ((mem_events_finished hreleased).mpr (.inr (.inr rfl)))

/-- The invariant has what the run is to show. -/
theorem Inv.sound {s : Scheduler} {ready : List CoroAddr} (h : Inv s ready) : s.Sound ready := by
  refine ⟨h.linked, fun a ha => ?_, h.fifo, h.spawned, fun _ => h.kept, h.lives,
    nodup_released h.lives, h.finished, fun coro stack hc => ?_, fun hc stack hlt => ?_⟩
  -- A coroutine of the list has a life that says so, and has not finished.
  · obtain ⟨b, hb, hlife⟩ := h.table.placed a _ (.ready ha)
    obtain ⟨c, hheap, hcb⟩ := exists_of_body hb
    have hready : life s.log c.stack = some .ready := by rw [← hlife, ← hcb]; rfl
    refine ⟨c, hheap, hready, fun hfinished => ?_⟩
    simpa using (mem_events_finished hready).mp hfinished
  · obtain ⟨b, hb, hstack, hcurrent, -⟩ := h.running hc
    obtain ⟨b', hb', hlife⟩ := h.table.placed coro _ (.current hcurrent)
    rw [← Option.some.inj (hb.symm.trans hb'), hstack] at hlife
    refine ⟨hstack ▸ (h.table.live coro b hb).2.1, fun hreleased => ?_⟩
    simpa using (mem_events_released hlife).mp hreleased
  · -- No coroutine has a place any more, so none is in memory.
    rcases h.control with ⟨hc', -, -⟩ | ⟨hc', -, -⟩ | ⟨hc', -, -, -, -⟩
      | ⟨-, hcurrent, hcleanup, hempty⟩
    · rw [hc] at hc'
      cases hc'
    · rw [hc] at hc'
      cases hc'
    · rw [hc] at hc'
      cases hc'
    · have hreleased : life s.log stack = some .released := by
        rcases h.table.dead stack hlt with ⟨a, b, hb, -⟩ | hreleased
        · obtain ⟨-, -, p, hplace⟩ := h.table.live a b hb
          simp [place_iff, hcurrent, hcleanup, hempty] at hplace
        · exact hreleased
      exact ⟨(mem_events_finished hreleased).mpr (Or.inr (Or.inr rfl)),
        (mem_events_released hreleased).mpr rfl⟩

/-- The invariant holds of the start, where there is nothing. -/
theorem inv_init : Inv {} [] := by
  refine ⟨.nil _, ?_, .main rfl rfl rfl, rfl, rfl, rfl⟩
  constructor
  case placed =>
    intro a p hp
    simp [place_iff] at hp
  case unborn =>
    intro stack _
    rfl
  case dead =>
    intro stack hlt
    exact absurd hlt (Nat.not_lt_zero stack)
  all_goals intros; simp_all [bodies]

/-- **The scheduler.** In every state of every run, whatever `malloc` returns and in any
order of `spawn`, `yield`, the return of functions and the steps of the worker: coroutines
are resumed in the order in which they are queued, none is lost, and each that finishes is
released once, after it has left its stack. What may happen next does so without a failed
assertion or an invalid access. `spawn` and `yield` then queue the new or the running
coroutine, and the worker resumes the first one of the list (`Effect`). -/
theorem schedulerRun_fifo {s : Scheduler} (h : s.Reachable) :
    ∃ ready, s.Sound ready ∧ ∀ action, s.Enabled action →
      ∃ s' ready', s.step action = .ok s' ∧ s.Effect ready action s' ready'
        ∧ s'.Sound ready' := by
  have hinv : ∃ ready, Inv s ready := by
    induction h with
    | init => exact ⟨[], inv_init⟩
    | step _ henabled hstep ih =>
        obtain ⟨ready, hinv⟩ := ih
        obtain ⟨s', ready', hrun, -, hinv'⟩ := inv_step hinv henabled
        rw [hstep] at hrun
        cases hrun
        exact ⟨ready', hinv'⟩
  obtain ⟨ready, hinv⟩ := hinv
  refine ⟨ready, hinv.sound, fun action henabled => ?_⟩
  obtain ⟨s', ready', hrun, heffect, hinv'⟩ := inv_step hinv henabled
  exact ⟨s', ready', hrun, heffect, hinv'.sound⟩

/-- The state after an action. -/
def after (s : Scheduler) (action : Action) : Scheduler :=
  match s.step action with
  | .ok s' => s'
  | .error _ => s

/-- What `malloc` returns has anything in it. -/
def memory : Coro := ⟨none, 0, 0, 0, none, none⟩

/-- The program makes two coroutines and runs the scheduler. -/
def spawnedTwice : Scheduler :=
  (((({} : Scheduler).after (.spawn 7 1 memory)).after (.spawn 8 2 memory)).after .run)

/-- The first coroutine is resumed and yields, so that it is behind the second. -/
def yieldedOnce : Scheduler := (spawnedTwice.after .dispatch).after .yield

/-- The example with two coroutines can be reached. -/
theorem spawnedTwice_reachable : spawnedTwice.Reachable :=
  .step (a := .run) (.step (a := .spawn 8 2 memory) (.step (a := .spawn 7 1 memory) .init
    ⟨rfl, by decide, by decide⟩ rfl) ⟨rfl, by decide, by decide⟩ rfl) rfl rfl

/-- The example in which one has yielded can be reached. -/
theorem yieldedOnce_reachable : yieldedOnce.Reachable :=
  .step (a := .yield) (.step (a := .dispatch) spawnedTwice_reachable rfl rfl) ⟨1, 0, rfl⟩ rfl

/-- In this state one coroutine runs and one waits, and each action that is enabled has
its effect. -/
theorem schedulerRun_fifo_yielded :
    ∃ ready, yieldedOnce.Sound ready ∧ ∀ action, yieldedOnce.Enabled action →
      ∃ s' ready', yieldedOnce.step action = .ok s' ∧ yieldedOnce.Effect ready action s' ready'
        ∧ s'.Sound ready' :=
  schedulerRun_fifo yieldedOnce_reachable

example : yieldedOnce.log = [(.spawned, 0), (.queued, 0), (.spawned, 1), (.queued, 1),
    (.resumed, 0), (.queued, 0), (.left, 0)] := by decide

end Scheduler

end Aike
