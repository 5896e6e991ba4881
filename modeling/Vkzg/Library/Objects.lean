import Mathlib.Data.Finset.Basic
import Mathlib.Data.Finset.SDiff
import Mathlib.Data.Finset.Lattice.Lemmas
import Mathlib.Tactic.Convert

/-! Objects that a program creates and destroys through handles. An object may have a parent: it is
made from the parent's handle, and has to go before the parent does. A program that breaks a rule of
use has no next state. -/

namespace Objects

variable {ι α β : Type}

/-- What exists, and what the program has a handle to. -/
@[ext] structure State (ι : Type) where
  alive : Finset ι
  held : Finset ι

/-- A program over objects; `none` is a breach of the rules of use. -/
abbrev Program (ι α : Type) := StateT (State ι) Option α

section Programs
variable [DecidableEq ι] (parent : ι → Option ι)

/-- A request for an object. The handle of its parent has to be there, and no handle is written
over. A request that is denied leaves everything as it is. -/
def create (granted : Bool) (o : ι) : Program ι Bool := fun s =>
  if (∀ p ∈ parent o, p ∈ s.held ∧ p ∈ s.alive) ∧ o ∉ s.alive ∧ o ∉ s.held then
    some (granted, if granted then ⟨insert o s.alive, insert o s.held⟩ else s)
  else none

/-- A call on an object that leaves it as it is. -/
def use (o : ι) : Program ι Unit := fun s => if o ∈ s.held ∧ o ∈ s.alive then some ((), s) else none

/-- The object goes, unless another one depends on it. -/
def destroy (o : ι) : Program ι Unit := fun s =>
  if o ∈ s.held ∧ o ∈ s.alive ∧ ∀ c ∈ s.alive, parent c ≠ some o then
    some ((), ⟨s.alive.erase o, s.held.erase o⟩)
  else none

/-- The handles go, the objects stay. -/
def forget (os : List ι) : Program ι Unit := fun s => some ((), ⟨s.alive, s.held \ os.toFinset⟩)

/-- All handles go. -/
def forgetAll : Program ι Unit := fun s => some ((), ⟨s.alive, ∅⟩)

/-- Destroys the object of a handle that is not null. -/
def release (o : ι) : Program ι Unit := fun s =>
  if o ∈ s.held then destroy parent o s else some ((), s)

def releaseAll : List ι → Program ι Unit
  | [] => pure ()
  | o :: os => do
    release parent o
    releaseAll os

/-- The second request is made only if the first one is granted. -/
def andThen (m m' : Program ι Bool) : Program ι Bool := do
  if ← m then m' else pure false

/-- Both requests are made, whatever becomes of the first one. -/
def both (m m' : Program ι Bool) : Program ι Bool := do
  let ok ← m
  let ok' ← m'
  pure (ok && ok')

/-- The object is there while `m` runs. -/
def during (granted : Bool) (t : ι) (m : Program ι Bool) : Program ι Bool := do
  if ← create parent granted t then
    let ok ← m
    destroy parent t
    pure ok
  else pure false

/-- Handles that are kept only if all of `os` are granted. -/
def orForget (os : List ι) (m : Program ι Bool) : Program ι Bool := do
  if ← m then pure true
  else
    forget os
    pure false

def allOf (each : β → Program ι Bool) : List β → Program ι Bool
  | [] => pure true
  | b :: bs => both (each b) (allOf each bs)

def untilDenied (each : β → Program ι Bool) : List β → Program ι Bool
  | [] => pure true
  | b :: bs => andThen (each b) (untilDenied each bs)

end Programs

/-! ### Runs -/

/-- The program breaks no rule from `s`, and what it returns and leaves satisfies `Q`. -/
def Runs (m : Program ι α) (s : State ι) (Q : α → State ι → Prop) : Prop :=
  ∃ a s', m s = some (a, s') ∧ Q a s'

section Runs
variable {s : State ι} {Q : α → State ι → Prop}

theorem runs_pure {a : α} (h : Q a s) : Runs (pure a) s Q := ⟨a, s, rfl, h⟩

theorem runs_bind {m : Program ι β} {f : β → Program ι α}
    (h : Runs m s fun b s' => Runs (f b) s' Q) : Runs (m >>= f) s Q := by
  obtain ⟨b, s', hm, a, s'', hf, hQ⟩ := h
  refine ⟨a, s'', ?_, hQ⟩
  show (m s).bind (fun p => f p.1 p.2) = _
  rw [hm]
  exact hf

theorem Runs.mono {m : Program ι α} {Q' : α → State ι → Prop} (h : Runs m s Q)
    (hQ : ∀ a s', Q a s' → Q' a s') : Runs m s Q' := by
  obtain ⟨a, s', hm, h⟩ := h
  exact ⟨a, s', hm, hQ a s' h⟩

theorem bind_eq_none {m : Program ι β} {f : β → Program ι α} (h : ∀ b s', m s = some (b, s') →
    f b s' = none) : (m >>= f) s = none := by
  show (m s).bind (fun p => f p.1 p.2) = _
  cases hm : m s with
  | none => rfl
  | some r => exact h r.1 r.2 hm

end Runs

/-! ### Destruction -/

section Release
variable [DecidableEq ι] {parent : ι → Option ι} {s : State ι}

theorem runs_use {o : ι} {Q : Unit → State ι → Prop} (hs : s.alive = s.held) (ho : o ∈ s.held)
    (h : Q () s) : Runs (use o) s Q := ⟨(), s, if_pos ⟨ho, hs ▸ ho⟩, h⟩

theorem runs_create {o : ι} {granted : Bool} {Q : Bool → State ι → Prop} (hs : s.alive = s.held)
    (hparent : ∀ p ∈ parent o, p ∈ s.held) (ho : o ∉ s.held)
    (h : Q granted (if granted then ⟨insert o s.alive, insert o s.held⟩ else s)) :
    Runs (create parent granted o) s Q :=
  ⟨_, _, if_pos ⟨fun p hp => ⟨hparent p hp, hs ▸ hparent p hp⟩, hs ▸ ho, ho⟩, h⟩

theorem runs_destroy {o : ι} {Q : Unit → State ι → Prop} (hs : s.alive = s.held)
    (hchild : ∀ c, parent c ≠ some o) (ho : o ∈ s.held)
    (h : Q () ⟨s.alive.erase o, s.held.erase o⟩) : Runs (destroy parent o) s Q :=
  ⟨(), _, if_pos ⟨ho, hs ▸ ho, fun c _ => hchild c⟩, h⟩

theorem runs_forget {os : List ι} {Q : Unit → State ι → Prop}
    (h : Q () ⟨s.alive, s.held \ os.toFinset⟩) : Runs (forget os) s Q := ⟨(), _, rfl, h⟩

omit [DecidableEq ι] in
theorem runs_forgetAll {Q : Unit → State ι → Prop} (h : Q () ⟨s.alive, ∅⟩) :
    Runs (@forgetAll ι) s Q := ⟨(), _, rfl, h⟩

theorem runs_release {o : ι} {Q : Unit → State ι → Prop} (halive : o ∈ s.held → o ∈ s.alive)
    (hchild : o ∈ s.held → ∀ c ∈ s.alive, parent c ≠ some o)
    (hdestroyed : o ∈ s.held → Q () ⟨s.alive.erase o, s.held.erase o⟩) (hnull : o ∉ s.held → Q () s) :
    Runs (release parent o) s Q := by
  by_cases hheld : o ∈ s.held
  · refine ⟨(), _, ?_, hdestroyed hheld⟩
    rw [release, if_pos hheld, destroy, if_pos ⟨hheld, halive hheld, hchild hheld⟩]
  · exact ⟨(), s, by rw [release, if_neg hheld], hnull hheld⟩

/-- A list with every child before its parent can be released from the front, if what depends on it
is on the list and held. -/
theorem runs_releaseAll {os : List ι} (hheld : s.held ⊆ s.alive) (hself : ∀ o, parent o ≠ some o)
    (hsorted : os.Pairwise fun a b => parent b ≠ some a)
    (hchild : ∀ o ∈ os, ∀ c ∈ s.alive, parent c = some o → c ∈ os ∧ c ∈ s.held)
    {Q : Unit → State ι → Prop}
    (h : Q () ⟨s.alive \ (s.held ∩ os.toFinset), s.held \ os.toFinset⟩) :
    Runs (releaseAll parent os) s Q := by
  induction os generalizing s with
  | nil =>
    refine runs_pure ?_
    rwa [List.toFinset_nil, Finset.inter_empty, Finset.sdiff_empty, Finset.sdiff_empty] at h
  | cons o os ih =>
    obtain ⟨hfirst, hsorted⟩ := List.pairwise_cons.mp hsorted
    have hnone : ∀ c ∈ s.alive, parent c ≠ some o := fun c hc hp => by
      rcases List.mem_cons.mp (hchild o List.mem_cons_self c hc hp).1 with rfl | hmem
      · exact hself c hp
      · exact hfirst c hmem hp
    have hrest : ∀ o' ∈ os, ∀ c ∈ s.alive, parent c = some o' → c ≠ o → c ∈ os ∧ c ∈ s.held :=
      fun o' ho' c hc hp hne =>
        have hmem := hchild o' (List.mem_cons_of_mem o ho') c hc hp
        ⟨(List.mem_cons.mp hmem.1).resolve_left hne, hmem.2⟩
    refine runs_bind (runs_release (fun ho => hheld ho) (fun _ => hnone) (fun ho => ?_) fun ho => ?_)
    · refine @ih ⟨s.alive.erase o, s.held.erase o⟩ (Finset.erase_subset_erase o hheld) hsorted
        (fun o' ho' c hc hp => ?_) ?_
      · obtain ⟨hne, hc⟩ := Finset.mem_erase.mp hc
        obtain ⟨hmem, hcheld⟩ := hrest o' ho' c hc hp hne
        exact ⟨hmem, Finset.mem_erase.mpr ⟨hne, hcheld⟩⟩
      · convert h using 2 <;> ext c <;> simp only [Finset.mem_sdiff, Finset.mem_inter,
          Finset.mem_erase, List.toFinset_cons, Finset.mem_insert] <;> by_cases hc : c = o <;>
          simp [hc, ho]
    · refine @ih s hheld hsorted (fun o' ho' c hc hp => hrest o' ho' c hc hp ?_) ?_
      · rintro rfl
        exact ho (hchild o' (List.mem_cons_of_mem c ho') c hc hp).2
      · convert h using 2 <;> ext c <;> simp only [Finset.mem_sdiff, Finset.mem_inter,
          List.toFinset_cons, Finset.mem_insert] <;> by_cases hc : c = o <;> simp [hc, ho]

/-- An object whose handle is lost keeps its parent from going. -/
theorem releaseAll_eq_none {os : List ι} {o c : ι} (hparent : parent c = some o) (hc : c ∈ s.alive)
    (hlost : c ∉ s.held) (ho : o ∈ s.held) (hmem : o ∈ os) : releaseAll parent os s = none := by
  induction os generalizing s with
  | nil => exact absurd hmem List.not_mem_nil
  | cons o' os ih =>
    refine bind_eq_none fun _ s' hrelease => ?_
    simp only [release, destroy] at hrelease
    split_ifs at hrelease with hheld hall
    · cases hrelease
      have hne : o ≠ o' := fun h => hall.2.2 c hc (h ▸ hparent)
      refine ih (Finset.mem_erase.mpr ⟨?_, hc⟩) (fun h => hlost (Finset.mem_of_mem_erase h))
        (Finset.mem_erase.mpr ⟨hne, ho⟩) ((List.mem_cons.mp hmem).resolve_left hne)
      rintro rfl
      exact hlost hheld
    · cases hrelease
      refine ih hc hlost ho ((List.mem_cons.mp hmem).resolve_left ?_)
      rintro rfl
      exact hheld ho

end Release

/-! ### Creation -/

/-- What a program leaves that asked for `os` and returned whether it got all of them. It lost no
handle, and kept none to the objects of `temp`. -/
structure Grown (temp os : List ι) (granted : Bool) (s : State ι) (ok : Bool) (s' : State ι) :
    Prop where
  answer : ok = granted
  known : s'.alive = s'.held
  keep : ∀ o ∈ s.held, o ∈ s'.held
  only : ∀ o ∈ s'.held, o ∈ s.held ∨ o ∈ os
  temp : ∀ o ∈ temp, o ∉ s'.held
  all : granted = true → ∀ o ∈ os, o ∈ s'.held

theorem Grown.denied {temp os : List ι} {s s' : State ι} {ok : Bool}
    (h : Grown temp [] false s ok s') : Grown temp os false s ok s' :=
  ⟨h.answer, h.known, h.keep, fun o ho => (h.only o ho).imp_right nofun, h.temp, nofun⟩

/-- The program breaks no rule with `need` at hand. -/
def Grows [DecidableEq ι] (temp need os : List ι) (granted : Bool) (m : Program ι Bool) : Prop :=
  ∀ s : State ι, s.alive = s.held → (∀ o ∈ need, o ∈ s.held) → (∀ o ∈ temp, o ∉ s.held) →
    (∀ o ∈ os, o ∉ s.held) → Runs m s (Grown temp os granted s)

section Grows
variable [DecidableEq ι] {parent : ι → Option ι} {temp need os os' : List ι}
  {granted granted' : Bool} {m m' : Program ι Bool} {o t : ι}

theorem grows_pure : Grows temp need [] granted (pure granted) := fun _ hs _ htemp _ =>
  runs_pure ⟨rfl, hs, fun _ => id, fun _ => .inl, htemp, fun _ _ => nofun⟩

theorem Grows.use (h : Grows temp need os granted m) (ho : o ∈ need) :
    Grows temp need os granted (do Objects.use o; m) := fun s hs hneed htemp hnew =>
  runs_bind (runs_use hs (hneed o ho) (h s hs hneed htemp hnew))

theorem Grows.mono {need' : List ι} (h : Grows temp need os granted m)
    (hneed : ∀ o ∈ need, o ∈ need') : Grows temp need' os granted m := fun s hs hheld =>
  h s hs fun o ho => hheld o (hneed o ho)

/-- A program that gets nothing is one that does not get all it asks for. -/
theorem Grows.denied (h : Grows (temp ++ os) need [] false m) : Grows temp need os false m := by
  intro s hs hneed htemp hnew
  refine (h s hs hneed (List.forall_mem_append.mpr ⟨htemp, hnew⟩) nofun).mono fun ok s' hgrown => ?_
  exact { hgrown.denied with temp := fun o ho => hgrown.temp o (List.mem_append_left _ ho) }

theorem grows_create (hparent : ∀ p ∈ parent o, p ∈ need) (ho : o ∉ temp) :
    Grows temp need [o] granted (create parent granted o) := by
  intro s hs hneed htemp hnew
  refine runs_create hs (fun p hp => hneed p (hparent p hp)) (hnew o List.mem_cons_self) ?_
  cases granted with
  | false => exact ⟨rfl, hs, fun _ => id, fun _ => .inl, htemp, nofun⟩
  | true =>
    refine ⟨rfl, ?_, fun _ => Finset.mem_insert_of_mem, fun c hc => ?_, fun c hc hmem => ?_,
      fun _ c hc => ?_⟩
    · simp only [if_true, hs]
    · exact (Finset.mem_insert.mp hc).symm.imp_right List.mem_singleton.mpr
    · rcases Finset.mem_insert.mp hmem with rfl | hmem
      · exact ho hc
      · exact htemp c hc hmem
    · exact Finset.mem_insert.mpr (.inl (List.mem_singleton.mp hc))

theorem grows_denied (hparent : ∀ p ∈ parent o, p ∈ need) (ho : o ∈ temp) :
    Grows temp need [] false (create parent false o) := fun _ hs hneed htemp _ =>
  runs_create hs (fun p hp => hneed p (hparent p hp)) (htemp o ho)
    ⟨rfl, hs, fun _ => id, fun _ => .inl, htemp, nofun⟩

theorem Grows.andThen (h : Grows temp need os granted m)
    (h' : Grows temp (need ++ os) os' granted' m') (hdisjoint : List.Disjoint os os') :
    Grows temp need (os ++ os') (granted && granted') (andThen m m') := by
  intro s hs hneed htemp hnew
  rw [List.forall_mem_append] at hnew
  refine runs_bind ((h s hs hneed htemp hnew.1).mono ?_)
  rintro ok s₁ ⟨rfl, hs₁, hkeep, honly, htemp₁, hall⟩
  cases ok with
  | false =>
    exact runs_pure ⟨rfl, hs₁, hkeep, fun o ho => (honly o ho).imp_right (List.mem_append_left _),
      htemp₁, nofun⟩
  | true =>
    refine (h' s₁ hs₁ (List.forall_mem_append.mpr ⟨fun o ho => hkeep o (hneed o ho), hall rfl⟩)
      htemp₁ fun o ho hold => ?_).mono ?_
    · exact (honly o hold).elim (hnew.2 o ho) fun hos => hdisjoint hos ho
    · rintro ok s₂ ⟨rfl, hs₂, hkeep₂, honly₂, htemp₂, hall₂⟩
      refine ⟨rfl, hs₂, fun o ho => hkeep₂ o (hkeep o ho), fun o ho => ?_, htemp₂, fun hok =>
        List.forall_mem_append.mpr ⟨fun o ho => hkeep₂ o (hall rfl o ho), hall₂ hok⟩⟩
      rcases honly₂ o ho with hold | hnew
      · exact (honly o hold).imp_right (List.mem_append_left _)
      · exact .inr (List.mem_append_right _ hnew)

theorem Grows.both (h : Grows temp need os granted m) (h' : Grows temp need os' granted' m')
    (hdisjoint : List.Disjoint os os') :
    Grows temp need (os ++ os') (granted && granted') (both m m') := by
  intro s hs hneed htemp hnew
  rw [List.forall_mem_append] at hnew
  refine runs_bind ((h s hs hneed htemp hnew.1).mono ?_)
  rintro ok s₁ ⟨rfl, hs₁, hkeep, honly, htemp₁, hall⟩
  refine runs_bind ((h' s₁ hs₁ (fun o ho => hkeep o (hneed o ho)) htemp₁ fun o ho hold => ?_).mono ?_)
  · exact (honly o hold).elim (hnew.2 o ho) fun hos => hdisjoint hos ho
  · rintro ok' s₂ ⟨rfl, hs₂, hkeep₂, honly₂, htemp₂, hall₂⟩
    refine runs_pure ⟨rfl, hs₂, fun o ho => hkeep₂ o (hkeep o ho), fun o ho => ?_, htemp₂,
      fun hok => ?_⟩
    · rcases honly₂ o ho with hold | hnew
      · exact (honly o hold).imp_right (List.mem_append_left _)
      · exact .inr (List.mem_append_right _ hnew)
    · obtain ⟨hok, hok'⟩ := Bool.and_eq_true_iff.mp hok
      exact List.forall_mem_append.mpr ⟨fun o ho => hkeep₂ o (hall hok o ho), hall₂ hok'⟩

theorem grows_during_denied (hparent : ∀ p ∈ parent t, p ∈ need) (ht : t ∈ temp) :
    Grows temp need [] false (during parent false t m) := fun s hs hneed htemp hnew => by
  refine runs_bind ((grows_denied hparent ht s hs hneed htemp hnew).mono ?_)
  rintro ok s' hgrown
  obtain rfl := hgrown.answer
  exact runs_pure hgrown

theorem Grows.during (h : Grows temp (t :: need) os granted' m)
    (hparent : ∀ p ∈ parent t, p ∈ need) (hchild : ∀ c, parent c ≠ some t) (htemp : t ∉ temp)
    (hos : t ∉ os) :
    Grows (t :: temp) need os (granted && granted') (during parent granted t m) := by
  intro s hs hneed hold hnew
  obtain ⟨ht, hold'⟩ := List.forall_mem_cons.mp hold
  cases granted with
  | false =>
    exact (grows_during_denied hparent List.mem_cons_self s hs hneed hold nofun).mono
      fun _ _ => Grown.denied
  | true =>
    have hcreate : Grows temp need [t] true (create parent true t) := grows_create hparent htemp
    refine runs_bind ((hcreate s hs hneed hold' (List.forall_mem_singleton.mpr ht)).mono ?_)
    rintro ok s₁ ⟨rfl, hs₁, hkeep, honly, htemp₁, hall⟩
    have hback : ∀ o ∈ s₁.held, o ≠ t → o ∈ s.held := fun o ho hne =>
      (honly o ho).resolve_right fun hmem => hne (List.mem_singleton.mp hmem)
    have hthere : t ∈ s₁.held := hall rfl t List.mem_cons_self
    refine runs_bind ((h s₁ hs₁ (List.forall_mem_cons.mpr ⟨hthere, fun o ho => hkeep o (hneed o ho)⟩)
      htemp₁ fun o ho hmem => ?_).mono ?_)
    · exact hnew o ho (hback o hmem fun h => hos (h ▸ ho))
    · rintro ok s₂ ⟨rfl, hs₂, hkeep₂, honly₂, htemp₂, hall₂⟩
      refine runs_bind (runs_destroy hs₂ hchild (hkeep₂ t hthere) (runs_pure ⟨rfl, ?_, fun o ho => ?_,
        fun o ho => ?_, List.forall_mem_cons.mpr ⟨Finset.notMem_erase t _, fun o ho hmem => ?_⟩,
        fun hok o ho => ?_⟩))
      · simp only [hs₂]
      · exact Finset.mem_erase.mpr ⟨fun h => ht (h ▸ ho), hkeep₂ o (hkeep o ho)⟩
      · obtain ⟨hne, ho⟩ := Finset.mem_erase.mp ho
        exact (honly₂ o ho).imp_left fun h => hback o h hne
      · exact htemp₂ o ho (Finset.mem_of_mem_erase hmem)
      · exact Finset.mem_erase.mpr ⟨fun h => hos (h ▸ ho), hall₂ hok o ho⟩

theorem Grows.orForget (h : Grows temp need os true m) :
    Grows temp need os true (Objects.orForget os m) :=
  fun s hs hneed htemp hnew => runs_bind ((h s hs hneed htemp hnew).mono fun ok s' hgrown => by
    obtain rfl := hgrown.answer
    exact runs_pure hgrown)

theorem Grows.orForget_denied (h : Grows (temp ++ os) need [] false m) :
    Grows temp need os false (Objects.orForget os m) := by
  intro s hs hneed htemp hnew
  refine runs_bind ((h s hs hneed (List.forall_mem_append.mpr ⟨htemp, hnew⟩) nofun).mono ?_)
  rintro ok s' ⟨rfl, hs', hkeep, honly, hnone, -⟩
  have hsame : s'.held \ os.toFinset = s'.held :=
    Finset.sdiff_eq_self_of_disjoint (Finset.disjoint_right.mpr fun o ho =>
      hnone o (List.mem_append_right _ (List.mem_toFinset.mp ho)))
  refine runs_bind (runs_forget (runs_pure ⟨rfl, ?_, ?_, ?_, ?_, nofun⟩)) <;> rw [hsame]
  · exact hs'
  · exact hkeep
  · exact fun o ho => (honly o ho).imp_right nofun
  · exact fun o ho => hnone o (List.mem_append_left _ ho)

variable {each : β → Program ι Bool} {items : β → List ι} {grants : β → Bool} {bs : List β}

theorem grows_allOf (h : ∀ b ∈ bs, Grows temp need (items b) (grants b) (each b))
    (hnodup : (bs.flatMap items).Nodup) :
    Grows temp need (bs.flatMap items) (bs.all grants) (allOf each bs) := by
  induction bs with
  | nil => exact grows_pure
  | cons b bs ih =>
    obtain ⟨-, hrest, hdisjoint⟩ := List.nodup_append'.mp hnodup
    exact (h b List.mem_cons_self).both (ih (fun b hb => h b (List.mem_cons_of_mem _ hb)) hrest)
      hdisjoint

theorem grows_untilDenied (h : ∀ b ∈ bs, Grows temp need (items b) (grants b) (each b))
    (hnodup : (bs.flatMap items).Nodup) :
    Grows temp need (bs.flatMap items) (bs.all grants) (untilDenied each bs) := by
  induction bs with
  | nil => exact grows_pure
  | cons b bs ih =>
    obtain ⟨-, hrest, hdisjoint⟩ := List.nodup_append'.mp hnodup
    exact (h b List.mem_cons_self).andThen ((ih (fun b hb => h b (List.mem_cons_of_mem _ hb))
      hrest).mono fun _ => List.mem_append_left _) hdisjoint

end Grows

end Objects
