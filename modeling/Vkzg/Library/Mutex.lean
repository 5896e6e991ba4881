import Mathlib.Logic.Relation
import Mathlib.Logic.Function.Basic
import Mathlib.Algebra.Order.BigOperators.Group.Finset
import Mathlib.Algebra.Ring.Nat

/-! Threads whose operations work on one memory under one mutex. The results of every interleaving are
those of the operations one after the other, in the order in which they give the lock back. -/

namespace Mutex

/-- What an operation does before it takes the lock, and one step of it while it holds the lock. Each
returns a result, or a local state to go on from. -/
structure Code (Op L M R : Type) where
  enter : Op → R ⊕ L
  step : L → M → (R ⊕ L) × M

inductive Phase (Op L : Type)
  | idle
  | waiting (op : Op) (l : L)
  | holding (op : Op) (l : L)

def Phase.ops {Op L : Type} : Phase Op L → List Op
  | .idle => []
  | .waiting op _ => [op]
  | .holding op _ => [op]

structure Thread (Op L R : Type) where
  todo : List Op
  phase : Phase Op L
  returned : List (Op × R)

/-- The log lists the operations in the order in which they took effect. -/
structure State (T Op L M R : Type) where
  mem : M
  holder : Option T
  threads : T → Thread Op L R
  log : List (T × Op × R)

def start {T Op L M R : Type} (program : T → List Op) (m : M) : State T Op L M R :=
  ⟨m, none, fun t => ⟨program t, .idle, []⟩, []⟩

variable {T Op L M R : Type} [DecidableEq T]

def State.set (σ : State T Op L M R) (t : T) (th : Thread Op L R) : T → Thread Op L R :=
  Function.update σ.threads t th

/-- A step of one thread. The lock is given back with the result. -/
inductive Step (c : Code Op L M R) : State T Op L M R → State T Op L M R → Prop
  | leave {σ t op ops rs r} (ht : σ.threads t = ⟨op :: ops, .idle, rs⟩) (he : c.enter op = .inl r) :
    Step c σ ⟨σ.mem, σ.holder, σ.set t ⟨ops, .idle, rs ++ [(op, r)]⟩, σ.log ++ [(t, op, r)]⟩
  | arrive {σ t op ops rs l} (ht : σ.threads t = ⟨op :: ops, .idle, rs⟩) (he : c.enter op = .inr l) :
    Step c σ ⟨σ.mem, σ.holder, σ.set t ⟨ops, .waiting op l, rs⟩, σ.log⟩
  | acquire {σ t op ops rs l} (ht : σ.threads t = ⟨ops, .waiting op l, rs⟩) (hfree : σ.holder = none) :
    Step c σ ⟨σ.mem, some t, σ.set t ⟨ops, .holding op l, rs⟩, σ.log⟩
  | work {σ t op ops rs l l' m} (ht : σ.threads t = ⟨ops, .holding op l, rs⟩)
      (hs : c.step l σ.mem = (.inr l', m)) :
    Step c σ ⟨m, σ.holder, σ.set t ⟨ops, .holding op l', rs⟩, σ.log⟩
  | release {σ t op ops rs l r m} (ht : σ.threads t = ⟨ops, .holding op l, rs⟩)
      (hs : c.step l σ.mem = (.inl r, m)) :
    Step c σ ⟨m, none, σ.set t ⟨ops, .idle, rs ++ [(op, r)]⟩, σ.log ++ [(t, op, r)]⟩

def Reachable (c : Code Op L M R) (program : T → List Op) (m : M) : State T Op L M R → Prop :=
  Relation.ReflTransGen (Step c) (start program m)

/-! ### One operation after the other -/

/-- From a local state and a memory, some steps later. -/
inductive Goes (c : Code Op L M R) (l : L) (m : M) : L → M → Prop
  | refl : Goes c l m l m
  | tail {l₁ m₁ l₂ m₂} : Goes c l m l₁ m₁ → c.step l₁ m₁ = (.inr l₂, m₂) → Goes c l m l₂ m₂

/-- An operation that nothing interrupts. -/
inductive Runs (c : Code Op L M R) (op : Op) (m : M) : R → M → Prop
  | leave {r} : c.enter op = .inl r → Runs c op m r m
  | release {l₀ l m₁ r m'} : c.enter op = .inr l₀ → Goes c l₀ m l m₁ → c.step l m₁ = (.inl r, m') →
    Runs c op m r m'

inductive Serial (c : Code Op L M R) (m₀ : M) : List (T × Op × R) → M → Prop
  | nil : Serial c m₀ [] m₀
  | snoc {log m t op r m'} : Serial c m₀ log m → Runs c op m r m' →
    Serial c m₀ (log ++ [(t, op, r)]) m'

theorem Goes.invariant {c : Code Op L M R} {β : Type} {F : L → M → β}
    (hF : ∀ l m l' m', c.step l m = (.inr l', m') → F l m = F l' m') {l l' : L} {m m' : M}
    (h : Goes c l m l' m') : F l m = F l' m' := by
  induction h with
  | refl => rfl
  | tail _ hs ih => exact ih.trans (hF _ _ _ _ hs)

/-! ### What holds in every state reached -/

/-- What holds of each thread by itself: its operations come back in order, and the log has them. -/
structure Thread.Own (c : Code Op L M R) (ops : List Op) (done : List (Op × R)) (th : Thread Op L R) :
    Prop where
  waits : ∀ op l, th.phase = .waiting op l → c.enter op = .inr l
  order : ops = th.returned.map Prod.fst ++ (th.phase.ops ++ th.todo)
  logged : done = th.returned

/-- The operations of one thread in the log. -/
def ofThread (log : List (T × Op × R)) (t : T) : List (Op × R) :=
  (log.filter fun e => e.1 = t).map Prod.snd

structure Inv (c : Code Op L M R) (program : T → List Op) (m₀ : M) (σ : State T Op L M R) : Prop where
  serial : ∃ m, Serial c m₀ σ.log m ∧ (σ.holder = none → σ.mem = m) ∧
    ∀ t op l, (σ.threads t).phase = .holding op l →
      ∃ l₀, c.enter op = .inr l₀ ∧ Goes c l₀ m l σ.mem
  holds : ∀ t, σ.holder = some t ↔ ∃ op l, (σ.threads t).phase = .holding op l
  own : ∀ t, (σ.threads t).Own c (program t) (ofThread σ.log t)

section Invariant
variable {c : Code Op L M R} {program : T → List Op} {m₀ : M} {σ σ' : State T Op L M R}

theorem State.set_self (t : T) (th : Thread Op L R) : σ.set t th t = th := Function.update_self ..

theorem State.set_other {t t' : T} (h : t' ≠ t) (th : Thread Op L R) :
    σ.set t th t' = σ.threads t' := Function.update_of_ne h ..

/-- What holds of the thread that moves and of every other one holds of all. -/
theorem State.set_forall {t : T} {th : Thread Op L R} {P : T → Thread Op L R → Prop}
    (hself : P t th) (hother : ∀ t' ≠ t, P t' (σ.threads t')) (t' : T) : P t' (σ.set t th t') := by
  by_cases h : t' = t
  · subst h
    rwa [State.set_self]
  · rw [State.set_other h]
    exact hother t' h

theorem ofThread_append_self (log : List (T × Op × R)) (t : T) (e : Op × R) :
    ofThread (log ++ [(t, e)]) t = ofThread log t ++ [e] := by
  simp [ofThread]

theorem ofThread_append_other (log : List (T × Op × R)) {t t' : T} (h : t' ≠ t) (e : Op × R) :
    ofThread (log ++ [(t, e)]) t' = ofThread log t' := by
  simp [ofThread, h.symm]

theorem inv_start : Inv c program m₀ (start program m₀ : State T Op L M R) where
  serial := ⟨m₀, .nil, fun _ => rfl, fun _ _ _ h => by cases h⟩
  holds t := ⟨fun h => (by cases h), fun ⟨_, _, h⟩ => by cases h⟩
  own t := ⟨fun _ _ h => (by cases h), rfl, rfl⟩

/-- Two threads never hold the lock. -/
theorem Inv.exclusive (h : Inv c program m₀ σ) {t t' : T} {op op' : Op} {l l' : L}
    (ht : (σ.threads t).phase = .holding op l) (ht' : (σ.threads t').phase = .holding op' l') :
    t = t' := by
  have hself := (h.holds t).mpr ⟨op, l, ht⟩
  have hother := (h.holds t').mpr ⟨op', l', ht'⟩
  exact Option.some.inj (hself.symm.trans hother)

/-- A thread that holds the lock before and after its step, or neither. -/
theorem Inv.holds_set (h : Inv c program m₀ σ) {t : T} {th : Thread Op L R}
    (hth : (∃ op l, th.phase = .holding op l) ↔ ∃ op l, (σ.threads t).phase = .holding op l) :
    ∀ t', σ.holder = some t' ↔ ∃ op l, (σ.set t th t').phase = .holding op l :=
  @State.set_forall _ _ _ _ _ _ σ t th
    (fun t' th => σ.holder = some t' ↔ ∃ op l, th.phase = .holding op l)
    ((h.holds t).trans hth.symm) fun t' _ => h.holds t'

/-- What the holder has done so far, when another thread moves. -/
theorem Inv.goes_set (h : ∀ t op l, (σ.threads t).phase = .holding op l →
      ∃ l₀, c.enter op = .inr l₀ ∧ Goes c l₀ m₀ l σ.mem) {t : T} {th : Thread Op L R}
    (hth : ∀ op l, th.phase ≠ .holding op l) : ∀ t' op l, (σ.set t th t').phase = .holding op l →
      ∃ l₀, c.enter op = .inr l₀ ∧ Goes c l₀ m₀ l σ.mem :=
  @State.set_forall _ _ _ _ _ _ σ t th (fun _ th => ∀ op l, th.phase = .holding op l →
      ∃ l₀, c.enter op = .inr l₀ ∧ Goes c l₀ m₀ l σ.mem)
    (fun op l hop => absurd hop (hth op l)) fun t' _ => h t'

theorem Inv.own_set (h : Inv c program m₀ σ) {t : T} {th : Thread Op L R}
    (hth : th.Own c (program t) (ofThread σ.log t)) :
    ∀ t', (σ.set t th t').Own c (program t') (ofThread σ.log t') :=
  @State.set_forall _ _ _ _ _ _ σ t th (fun t' th => th.Own c (program t') (ofThread σ.log t'))
    hth fun t' _ => h.own t'

/-- An operation of a thread comes back. -/
theorem Inv.own_returned (h : Inv c program m₀ σ) {t : T} {op : Op} {r : R} {ops : List Op}
    {rs : List (Op × R)} (hrs : (σ.threads t).returned = rs)
    (hops : (σ.threads t).phase.ops ++ (σ.threads t).todo = op :: ops) :
    ∀ t', (σ.set t ⟨ops, .idle, rs ++ [(op, r)]⟩ t').Own c (program t')
      (ofThread (σ.log ++ [(t, op, r)]) t') := by
  refine @State.set_forall _ _ _ _ _ _ σ t _ (fun t' th => th.Own c (program t')
    (ofThread (σ.log ++ [(t, op, r)]) t')) ⟨fun _ _ h => (by cases h), ?_, ?_⟩ fun t' hne => ?_
  · have horder := (h.own t).order
    rw [hops, hrs] at horder
    simpa [Phase.ops] using horder
  · rw [ofThread_append_self, (h.own t).logged, hrs]
  · rw [ofThread_append_other _ hne]
    exact h.own t'

theorem Inv.step (h : Inv c program m₀ σ) (hstep : Step c σ σ') : Inv c program m₀ σ' := by
  obtain ⟨m, hserial, hfree, hgoes⟩ := h.serial
  cases hstep with
  | @leave t op ops rs r ht he =>
    refine ⟨⟨m, hserial.snoc (.leave he), hfree, Inv.goes_set hgoes nofun⟩, h.holds_set ?_,
      h.own_returned (by rw [ht]) (by rw [ht]; rfl)⟩
    rw [ht]
  | @arrive t op ops rs l ht he =>
    have hown := h.own t
    rw [ht] at hown
    refine ⟨⟨m, hserial, hfree, Inv.goes_set hgoes nofun⟩, h.holds_set ?_,
      h.own_set ⟨fun op' l' hop => ?_, hown.order, hown.logged⟩⟩
    · rw [ht]
      exact ⟨nofun, nofun⟩
    · cases hop
      exact he
  | @acquire t op ops rs l ht hnone =>
    have hown := h.own t
    rw [ht] at hown
    have hnobody : ∀ t' op l, (σ.threads t').phase ≠ .holding op l := fun t' op l hop =>
      absurd ((h.holds t').mpr ⟨op, l, hop⟩) (by rw [hnone]; exact nofun)
    refine ⟨⟨m, hserial, nofun, ?_⟩, ?_, h.own_set ⟨nofun, hown.order, hown.logged⟩⟩
    · refine @State.set_forall _ _ _ _ _ _ σ t _ (fun _ th => ∀ op l, th.phase = .holding op l →
        ∃ l₀, c.enter op = .inr l₀ ∧ Goes c l₀ m l σ.mem) (fun op' l' hop => ?_)
        fun t' _ op' l' hop => absurd hop (hnobody t' op' l')
      cases hop
      rw [hfree hnone]
      exact ⟨l, hown.waits _ _ rfl, .refl⟩
    · refine @State.set_forall _ _ _ _ _ _ σ t _ (fun t' th => some t = some t' ↔
        ∃ op l, th.phase = .holding op l) ⟨fun _ => ⟨op, l, rfl⟩, fun _ => rfl⟩ fun t' hne => ?_
      exact ⟨fun heq => absurd (Option.some.inj heq).symm hne,
        fun ⟨op', l', hop⟩ => absurd hop (hnobody t' op' l')⟩
  | @work t op ops rs l l' m' ht hs =>
    have hown := h.own t
    rw [ht] at hown
    have hphase : (σ.threads t).phase = .holding op l := by rw [ht]
    refine ⟨⟨m, hserial, fun hnone => ?_, ?_⟩, h.holds_set ?_,
      h.own_set ⟨nofun, hown.order, hown.logged⟩⟩
    · have hheld := (h.holds t).mpr ⟨op, l, hphase⟩
      exact absurd (hheld.symm.trans hnone) nofun
    · refine @State.set_forall _ _ _ _ _ _ σ t _ (fun _ th => ∀ op l, th.phase = .holding op l →
        ∃ l₀, c.enter op = .inr l₀ ∧ Goes c l₀ m l m') (fun op' l'' hop => ?_)
        fun t' hne op' l'' hop => absurd (h.exclusive hop hphase) hne
      obtain ⟨l₀, he, hgo⟩ := hgoes t op l hphase
      cases hop
      exact ⟨l₀, he, hgo.tail hs⟩
    · rw [hphase]
      exact ⟨fun _ => ⟨op, l, rfl⟩, fun _ => ⟨op, l', rfl⟩⟩
  | @release t op ops rs l r m' ht hs =>
    have hphase : (σ.threads t).phase = .holding op l := by rw [ht]
    obtain ⟨l₀, he, hgo⟩ := hgoes t op l hphase
    have hnobody : ∀ t' ≠ t, ∀ op l, (σ.threads t').phase ≠ .holding op l :=
      fun t' hne op l hop => hne (h.exclusive hop hphase)
    refine ⟨⟨m', hserial.snoc (.release he hgo hs), fun _ => rfl, ?_⟩, ?_,
      h.own_returned (by rw [ht]) (by rw [ht]; rfl)⟩
    · exact @State.set_forall _ _ _ _ _ _ σ t _ (fun _ th => ∀ op l, th.phase = .holding op l →
        ∃ l₀, c.enter op = .inr l₀ ∧ Goes c l₀ m' l m') nofun
        fun t' hne op' l' hop => absurd hop (hnobody t' hne op' l')
    · exact @State.set_forall _ _ _ _ _ _ σ t _ (fun t' th => none = some t' ↔
        ∃ op l, th.phase = .holding op l) ⟨nofun, nofun⟩
        fun t' hne => ⟨nofun, fun ⟨op', l', hop⟩ => absurd hop (hnobody t' hne op' l')⟩

theorem Reachable.inv (h : Reachable c program m₀ σ) : Inv c program m₀ σ := by
  induction h with
  | refl => exact inv_start
  | tail _ hstep ih => exact ih.step hstep

/-- An operation that has come back stands in the log before any that starts later. -/
theorem log_prefix (h : Relation.ReflTransGen (Step c) σ σ') : σ.log <+: σ'.log := by
  induction h with
  | refl => exact List.prefix_rfl
  | tail _ hstep ih =>
    refine ih.trans ?_
    cases hstep with
    | leave => exact List.prefix_append _ _
    | arrive => exact List.prefix_rfl
    | acquire => exact List.prefix_rfl
    | work => exact List.prefix_rfl
    | release => exact List.prefix_append _ _

end Invariant

/-! ### No thread is blocked for ever -/

def Thread.Finished (th : Thread Op L R) : Prop := th.phase = .idle ∧ th.todo = []

section Progress
variable {c : Code Op L M R} {program : T → List Op} {m₀ : M} {σ σ' : State T Op L M R}

theorem Step.of_holding {t : T} {op : Op} {l : L} (h : (σ.threads t).phase = .holding op l) :
    ∃ σ', Step c σ σ' := by
  have ht : σ.threads t = ⟨(σ.threads t).todo, .holding op l, (σ.threads t).returned⟩ := by rw [← h]
  rcases hs : c.step l σ.mem with ⟨r | l', m⟩
  · exact ⟨_, .release ht hs⟩
  · exact ⟨_, .work ht hs⟩

/-- Whoever holds the lock can go on, and where nobody does any thread that is left can. -/
theorem Inv.progress (h : Inv c program m₀ σ) {t : T} (hleft : ¬(σ.threads t).Finished) :
    ∃ σ', Step c σ σ' := by
  cases hholder : σ.holder with
  | some t' =>
    obtain ⟨op, l, hop⟩ := (h.holds t').mp hholder
    exact Step.of_holding hop
  | none =>
    rcases ht : σ.threads t with ⟨ops, phase, rs⟩
    cases phase with
    | holding op l => exact Step.of_holding (by rw [ht])
    | waiting op l => exact ⟨_, .acquire ht hholder⟩
    | idle =>
      cases ops with
      | nil =>
        rw [ht] at hleft
        exact absurd ⟨rfl, rfl⟩ hleft
      | cons op ops =>
        cases he : c.enter op with
        | inl r => exact ⟨_, .leave ht he⟩
        | inr l => exact ⟨_, .arrive ht he⟩

/-- With every thread finished, each has the results of its whole program. -/
theorem Inv.finished (h : Inv c program m₀ σ) {t : T} (ht : (σ.threads t).Finished) :
    (σ.threads t).returned.map Prod.fst = program t := by
  have horder := (h.own t).order
  rw [ht.1, ht.2, Phase.ops, List.append_nil, List.append_nil] at horder
  exact horder.symm

/-- The steps that are left for an operation, when `size` bounds those under the lock. -/
def Code.cost (c : Code Op L M R) (size : L → ℕ) (op : Op) : ℕ :=
  match c.enter op with
  | .inl _ => 1
  | .inr l => size l + 3

def Thread.cost (c : Code Op L M R) (size : L → ℕ) (th : Thread Op L R) : ℕ :=
  (th.todo.map (c.cost size)).sum + match th.phase with
    | .idle => 0
    | .waiting _ l => size l + 2
    | .holding _ l => size l + 1

variable [Fintype T] {size : L → ℕ}

def State.cost (c : Code Op L M R) (size : L → ℕ) (σ : State T Op L M R) : ℕ :=
  ∑ t, (σ.threads t).cost c size

theorem State.cost_set {mem : M} {holder : Option T} {log : List (T × Op × R)} {t : T}
    {th : Thread Op L R} (h : th.cost c size < (σ.threads t).cost c size) :
    State.cost c size ⟨mem, holder, σ.set t th, log⟩ < σ.cost c size := by
  refine Finset.sum_lt_sum (fun t' _ => ?_) ⟨t, Finset.mem_univ t, ?_⟩
  · by_cases hne : t' = t
    · subst hne
      simp only [State.set_self]
      exact h.le
    · simp only [State.set_other hne]
      exact le_rfl
  · simp only [State.set_self]
    exact h

theorem Step.cost_lt (hsize : ∀ l m l' m', c.step l m = (.inr l', m') → size l' < size l)
    (h : Step c σ σ') : σ'.cost c size < σ.cost c size := by
  cases h with
  | leave ht he =>
    apply State.cost_set
    rw [ht]
    simp [Thread.cost, Code.cost, he]
  | arrive ht he =>
    apply State.cost_set
    rw [ht]
    simp only [Thread.cost, Code.cost, he, List.map_cons, List.sum_cons]
    omega
  | acquire ht hfree =>
    apply State.cost_set
    rw [ht]
    simp [Thread.cost]
  | work ht hs =>
    have hlt := hsize _ _ _ _ hs
    apply State.cost_set
    rw [ht]
    simpa [Thread.cost] using hlt
  | release ht hs =>
    apply State.cost_set
    rw [ht]
    simp [Thread.cost]

/-- No run is longer than what its threads have to do. -/
theorem length_run_le (hsize : ∀ l m l' m', c.step l m = (.inr l', m') → size l' < size l)
    {run : ℕ → State T Op L M R} {n : ℕ} (hrun : ∀ i < n, Step c (run i) (run (i + 1))) :
    n + (run n).cost c size ≤ (run 0).cost c size := by
  induction n with
  | zero => exact (Nat.zero_add _).le
  | succ n ih =>
    have hlt := (hrun n n.lt_succ_self).cost_lt hsize
    have hle := ih fun i hi => hrun i (hi.trans n.lt_succ_self)
    omega

end Progress

end Mutex
