/-
Runs of a labelled transition relation: what a list of labels can lead
to, and the two rules every invariant proof of the development goes
through.

A component is a relation `Step s a t`; an environment that keeps to a
discipline is the same relation with a guard on the label (`When`), so
"a run all of whose steps meet C" is a run of `When Step C`, and every
prefix of it is one too. A statement about every state such a run
reaches is therefore a statement about its last state.

`Logged` adds a history variable: what an observation function reads
off each step, in order. The log is not part of the component, so the
component's own definitions stay free of ghost fields.

`Part` is a component inside of a larger one: what the larger one does to
it, it could do alone.
-/

namespace Runs

universe u v w x y

variable {σ : Type u} {α : Type v} {β : Type w}

-- ============================================================== runs

/-- The labels `as` lead from the first state to the second. -/
inductive Run (Step : σ → α → σ → Prop) : σ → List α → σ → Prop
  | nil (s : σ) : Run Step s [] s
  | cons {s t u : σ} {a : α} {as : List α} :
      Step s a t → Run Step t as u → Run Step s (a :: as) u

/-- The relation restricted to the steps whose label meets `C` in the
state before them. -/
def When (Step : σ → α → σ → Prop) (C : σ → α → Prop) :
    σ → α → σ → Prop :=
  fun s a t => Step s a t ∧ C s a

/-- The relation restricted to the steps that end in a state of `P`. -/
def Into (Step : σ → α → σ → Prop) (P : σ → Prop) :
    σ → α → σ → Prop :=
  fun s a t => Step s a t ∧ P t

variable {Step Step' : σ → α → σ → Prop}

/-- Runs compose. -/
theorem Run.append {s t u : σ} {as bs : List α}
    (h₁ : Run Step s as t) (h₂ : Run Step t bs u) :
    Run Step s (as ++ bs) u := by
  induction h₁ with
  | nil _ => exact h₂
  | cons hstep _ ih => exact .cons hstep (ih h₂)

/-- One more step at the end of a run. -/
theorem Run.snoc {s t u : σ} {as : List α} {a : α}
    (h : Run Step s as t) (hstep : Step t a u) :
    Run Step s (as ++ [a]) u :=
  h.append (.cons hstep (.nil u))

/-- A run of a relation is a run of any larger one. -/
theorem Run.mono {s t : σ} {as : List α}
    (hle : ∀ s a t, Step s a t → Step' s a t) (h : Run Step s as t) :
    Run Step' s as t := by
  induction h with
  | nil s => exact .nil s
  | cons hstep _ ih => exact .cons (hle _ _ _ hstep) ih

-- ================================================== the invariant rules

/-- What every step preserves, every run preserves. -/
theorem Run.invariant {I : σ → Prop}
    (hpres : ∀ s a t, I s → Step s a t → I t)
    {s t : σ} {as : List α} (h : Run Step s as t) (hs : I s) : I t := by
  induction h with
  | nil _ => exact hs
  | cons hstep _ ih => exact ih (hpres _ _ _ hs hstep)

/-- What the steps that meet a guard preserve, every guarded run does. -/
theorem Run.when_invariant {I : σ → Prop} {C : σ → α → Prop}
    (hkeep : ∀ s a t, I s → Step s a t → C s a → I t)
    {s t : σ} {as : List α} (h : Run (When Step C) s as t) (hs : I s) : I t := by
  refine h.invariant (fun s a t hI hstep => ?_) hs
  exact hkeep s a t hI hstep.1 hstep.2

/-- Two relations that agree on the states of an invariant have the
same runs from there. -/
theorem Run.congr {I : σ → Prop}
    (hpres : ∀ s a t, I s → Step s a t → I t)
    (hiff : ∀ s a t, I s → (Step s a t ↔ Step' s a t))
    {s t : σ} {as : List α} (hs : I s) :
    Run Step s as t ↔ Run Step' s as t := by
  constructor
  · intro h
    induction h with
    | nil s => exact .nil s
    | cons hstep _ ih =>
        exact .cons ((hiff _ _ _ hs).mp hstep) (ih (hpres _ _ _ hs hstep))
  · intro h
    induction h with
    | nil s => exact .nil s
    | cons hstep _ ih =>
        have hstep' := (hiff _ _ _ hs).mpr hstep
        exact .cons hstep' (ih (hpres _ _ _ hs hstep'))

/-- Two guards that agree on the steps from states of an invariant have
the same guarded runs. -/
theorem Run.when_congr {I : σ → Prop} {C C' : σ → α → Prop}
    (hpres : ∀ s a t, I s → Step s a t → I t)
    (hiff : ∀ s a t, I s → Step s a t → (C s a ↔ C' s a))
    {s t : σ} {as : List α} (hs : I s) :
    Run (When Step C) s as t ↔ Run (When Step C') s as t := by
  refine Run.congr (fun s a t hI h => hpres s a t hI h.1) ?_ hs
  intro s a t hI
  constructor
  · rintro ⟨hstep, hC⟩
    exact ⟨hstep, (hiff s a t hI hstep).mp hC⟩
  · rintro ⟨hstep, hC⟩
    exact ⟨hstep, (hiff s a t hI hstep).mpr hC⟩

/-- Where a step ends in `P` exactly if its label met `C`, the runs that
stay in `P` are the runs all of whose labels meet `C`. -/
theorem Run.into_iff_when {I P : σ → Prop} {C : σ → α → Prop}
    (hpres : ∀ s a t, I s → Step s a t → I t)
    (hiff : ∀ s a t, I s → P s → Step s a t → (P t ↔ C s a))
    {s t : σ} {as : List α} (hs : I s) (hP : P s) :
    Run (Into Step P) s as t ↔ Run (When Step C) s as t := by
  constructor
  · intro h
    induction h with
    | nil s => exact .nil s
    | cons hstep _ ih =>
        obtain ⟨hstep, ht⟩ := hstep
        exact .cons ⟨hstep, (hiff _ _ _ hs hP hstep).mp ht⟩
          (ih (hpres _ _ _ hs hstep) ht)
  · intro h
    induction h with
    | nil s => exact .nil s
    | cons hstep _ ih =>
        obtain ⟨hstep, hC⟩ := hstep
        have ht := (hiff _ _ _ hs hP hstep).mpr hC
        exact .cons ⟨hstep, ht⟩ (ih (hpres _ _ _ hs hstep) ht)

/-- A measure that every step from the states of an invariant decreases
bounds the length of a run from there. -/
theorem Run.length_add_le {I : σ → Prop} {f : σ → Nat}
    (hpres : ∀ s a t, I s → Step s a t → I t)
    (hdec : ∀ s a t, I s → Step s a t → f t < f s)
    {s t : σ} {as : List α} (h : Run Step s as t) (hs : I s) :
    as.length + f t ≤ f s := by
  induction h with
  | nil s => exact Nat.le_of_eq (Nat.zero_add _)
  | cons hstep _ ih =>
      have hrest := ih (hpres _ _ _ hs hstep)
      have hless := hdec _ _ _ hs hstep
      rw [List.length_cons]
      omega

-- ================================================== history variables

/-- The relation with a log beside the state: each step appends what
`obs` reads off it. -/
def Logged (Step : σ → α → σ → Prop) (obs : σ → α → List β) :
    σ × List β → α → σ × List β → Prop :=
  fun p a q => Step p.1 a q.1 ∧ q.2 = p.2 ++ obs p.1 a

/-- One more step before a logged run, which starts with its entries. -/
theorem Run.logged_cons {obs : σ → α → List β} {s t : σ} {a : α}
    {as : List α} {log bs : List β} {q : σ × List β} (hstep : Step s a t)
    (hobs : obs s a = bs) (h : Run (Logged Step obs) (t, log ++ bs) as q) :
    Run (Logged Step obs) (s, log) (a :: as) q := by
  subst hobs
  exact .cons ⟨hstep, rfl⟩ h

/-- Every run can be logged. -/
theorem Run.exists_log {s t : σ} {as : List α} (h : Run Step s as t)
    (obs : σ → α → List β) (log : List β) :
    ∃ log', Run (Logged Step obs) (s, log) as (t, log') := by
  induction h generalizing log with
  | nil s => exact ⟨log, .nil _⟩
  | cons hstep _ ih =>
      obtain ⟨log', hrun⟩ := ih (log ++ obs _ _)
      exact ⟨log', .logged_cons hstep rfl hrun⟩

/-- A run of whose steps nothing is read off leaves the log as it is. -/
theorem Run.logged_quiet {obs : σ → α → List β} {s t : σ} {as : List α}
    (h : Run Step s as t) (hquiet : ∀ s, ∀ a ∈ as, obs s a = [])
    (log : List β) : Run (Logged Step obs) (s, log) as (t, log) := by
  induction h with
  | nil s => exact .nil _
  | @cons s t u a as hstep _ ih =>
      have hnone := hquiet s a (List.mem_cons_self ..)
      have hrest := ih fun s b hb => hquiet s b (List.mem_cons_of_mem _ hb)
      refine .logged_cons hstep hnone ?_
      rw [List.append_nil]
      exact hrest

/-- Where a step's entries keep a property of logs exactly if they meet
`Q`, the logged runs that end with the property are the runs all of whose
steps meet `Q`. -/
theorem Run.logged_iff {obs : σ → α → List β} {P : List β → Prop}
    {Q : σ → α → List β → Prop}
    (hadd : ∀ s a log, P (log ++ obs s a) ↔ P log ∧ Q s a log)
    {p q : σ × List β} {as : List α} :
    (Run (Logged Step obs) p as q ∧ P q.2)
      ↔ P p.2 ∧ Run (When (Logged Step obs) fun s a => Q s.1 a s.2) p as q
    := by
  constructor
  · rintro ⟨h, hend⟩
    induction h with
    | nil p => exact ⟨hend, .nil p⟩
    | cons hstep _ ih =>
        obtain ⟨hmid, hrest⟩ := ih hend
        rw [hstep.2] at hmid
        obtain ⟨hold, hnew⟩ := (hadd _ _ _).mp hmid
        exact ⟨hold, .cons ⟨hstep, hnew⟩ hrest⟩
  · rintro ⟨hp, h⟩
    induction h with
    | nil p => exact ⟨.nil p, hp⟩
    | @cons s t u a as hstep _ ih =>
        obtain ⟨hstep, hnew⟩ := hstep
        have hmid : P t.2 := by
          rw [hstep.2]
          exact (hadd _ _ _).mpr ⟨hp, hnew⟩
        obtain ⟨hrest, hend⟩ := ih hmid
        exact ⟨.cons hstep hrest, hend⟩

/-- A log all of whose entries satisfy `P` is one to which every step
adds such entries. -/
theorem Run.logged_forall {obs : σ → α → List β} {P : β → Prop}
    {p q : σ × List β} {as : List α} :
    (Run (Logged Step obs) p as q ∧ ∀ b ∈ q.2, P b)
      ↔ (∀ b ∈ p.2, P b) ∧ Run (When (Logged Step obs)
        fun s a => ∀ b ∈ obs s.1 a, P b) p as q :=
  Run.logged_iff (P := fun log => ∀ b ∈ log, P b) fun _ _ _ =>
    List.forall_mem_append

/-- Every entry of a log is related to the entries before it. -/
def EachAfter (R : List β → β → Prop) (log : List β) : Prop :=
  ∀ before b after, log = before ++ b :: after → R before b

theorem eachAfter_nil (R : List β → β → Prop) : EachAfter R [] := by
  intro before b after h
  cases before <;> cases h

/-- One more entry has all the others before it. -/
theorem eachAfter_snoc {R : List β → β → Prop} {log : List β} {c : β} :
    EachAfter R (log ++ [c]) ↔ EachAfter R log ∧ R log c := by
  constructor
  · intro h
    refine ⟨fun before b after hlog => ?_, h log c [] rfl⟩
    refine h before b (after ++ [c]) ?_
    rw [hlog, List.append_assoc, List.cons_append]
  · rintro ⟨hlog, hc⟩ before b after h
    rcases List.eq_nil_or_concat after with rfl | ⟨rest, d, rfl⟩
    · obtain ⟨rfl, hlast⟩ := List.append_inj' h rfl
      cases hlast
      exact hc
    · rw [List.concat_eq_append, ← List.cons_append, ← List.append_assoc] at h
      obtain ⟨hfront, -⟩ := List.append_inj' h rfl
      exact hlog before b rest hfront

/-- A log whose entries are each related to those before them is one to
which every step adds such an entry. -/
theorem Run.logged_eachAfter {obs : σ → α → List β}
    {R : List β → β → Prop} (hone : ∀ s a, (obs s a).length ≤ 1)
    {p q : σ × List β} {as : List α} :
    (Run (Logged Step obs) p as q ∧ EachAfter R q.2)
      ↔ EachAfter R p.2 ∧ Run (When (Logged Step obs)
        fun s a => ∀ c ∈ obs s.1 a, R s.2 c) p as q := by
  refine Run.logged_iff (P := EachAfter R)
    (Q := fun s a log => ∀ c ∈ obs s a, R log c) fun s a log => ?_
  match obs s a, hone s a with
  | [], _ => simp
  | [c], _ => rw [eachAfter_snoc, List.forall_mem_singleton]

/-- A log whose entries are pairwise related is one to which every step
adds an entry that all before are related to. -/
theorem Run.logged_pairwise {obs : σ → α → List β} {R : β → β → Prop}
    (hone : ∀ s a, (obs s a).length ≤ 1) {p q : σ × List β} {as : List α} :
    (Run (Logged Step obs) p as q ∧ q.2.Pairwise R)
      ↔ p.2.Pairwise R ∧ Run (When (Logged Step obs)
        fun s a => ∀ c ∈ obs s.1 a, ∀ b ∈ s.2, R b c) p as q := by
  refine Run.logged_iff (P := List.Pairwise R)
    (Q := fun s a log => ∀ c ∈ obs s a, ∀ b ∈ log, R b c) fun s a log => ?_
  match obs s a, hone s a with
  | [], _ => simp
  | [c], _ =>
      rw [List.pairwise_append, List.forall_mem_singleton]
      simp

-- =================================================== a part of a composite

/-- A part of a composite, in the states of an invariant: each step leaves
it as it is, takes it along one step of its own, or makes it. `Of` says
which labels of the part go with a label of the composite. -/
structure Part {τ : Type x} {γ : Type y} (Step : σ → α → σ → Prop)
    (I : σ → Prop) (part : σ → Option τ) (Own : τ → γ → τ → Prop)
    (Made : α → τ → Prop) (Of : α → γ → Prop) : Prop where
  pres : ∀ s a t, I s → Step s a t → I t
  cases : ∀ s a t q, I s → Step s a t → part t = some q →
    part s = some q ∨ (∃ p f, part s = some p ∧ Own p f q ∧ Of a f)
      ∨ Made a q

/-- It is where a run of its own leads, from how it was found or made, and
the labels of that run come from those of the composite. -/
theorem Part.run {τ : Type x} {γ : Type y} {I : σ → Prop}
    {part : σ → Option τ} {Own : τ → γ → τ → Prop} {Made : α → τ → Prop}
    {Of : α → γ → Prop} (hpart : Part Step I part Own Made Of)
    {s t : σ} {as : List α} {q : τ} (h : Run Step s as t) (hs : I s)
    (hq : part t = some q) :
    ∃ p fs, (part s = some p ∨ ∃ a ∈ as, Made a p) ∧ Run Own p fs q
      ∧ ∀ f ∈ fs, ∃ a ∈ as, Of a f := by
  induction h with
  | nil s => exact ⟨q, [], Or.inl hq, .nil q, fun f hf => by cases hf⟩
  | @cons s m t a as hstep _ ih =>
      obtain ⟨p, fs, hp, hrun, hof⟩ := ih (hpart.pres s a m hs hstep) hq
      have hrest : ∀ f ∈ fs, ∃ b ∈ a :: as, Of b f := fun f hf =>
        (hof f hf).imp fun b hb => ⟨List.mem_cons_of_mem _ hb.1, hb.2⟩
      rcases hp with hhere | ⟨b, hb, hmade⟩
      · -- the part was there behind the first step
        rcases hpart.cases s a m p hs hstep hhere with
          hsame | ⟨p₀, f, hbefore, hown, hf⟩ | hmade
        · exact ⟨p, fs, Or.inl hsame, hrun, hrest⟩
        · refine ⟨p₀, f :: fs, Or.inl hbefore, .cons hown hrun, ?_⟩
          exact List.forall_mem_cons.mpr ⟨⟨a, List.mem_cons_self .., hf⟩, hrest⟩
        · exact ⟨p, fs, Or.inr ⟨a, List.mem_cons_self .., hmade⟩, hrun, hrest⟩
      · exact ⟨p, fs, Or.inr ⟨b, List.mem_cons_of_mem _ hb, hmade⟩, hrun, hrest⟩

-- ======================================================= what may follow

/-- `P` holds, and goes on holding however the run goes on with steps
that meet `D`. -/
def Safely (Step : σ → α → σ → Prop) (D : σ → α → Prop) (P : σ → Prop)
    (s : σ) : Prop :=
  ∀ as t, Run (When Step D) s as t → P t

theorem Safely.now {D : σ → α → Prop} {P : σ → Prop} {s : σ}
    (h : Safely Step D P s) : P s := h [] s (.nil s)

/-- An invariant that implies `P` and is kept by the steps that meet `D`
makes a state safe. -/
theorem safely_of_invariant {I P : σ → Prop} {D : σ → α → Prop}
    (hkeep : ∀ s a t, I s → Step s a t → D s a → I t)
    (hP : ∀ s, I s → P s) {s : σ} (hI : I s) : Safely Step D P s := by
  intro as t hrun
  exact hP t (hrun.when_invariant hkeep hI)

/-- Where the steps that meet `C` keep an invariant that implies `P`, those
that meet `D` are among them, and any other step may lead, by more steps
that meet `D`, to a state without `P`: the runs that stay safe are the runs
all of whose steps meet `C`. -/
theorem Run.safely_iff_when {I P : σ → Prop} {C D : σ → α → Prop}
    (hkeep : ∀ s a t, I s → Step s a t → C s a → I t)
    (hquiet : ∀ s a, D s a → C s a) (hP : ∀ s, I s → P s)
    (hlost : ∀ s a t, I s → Step s a t → ¬C s a → ¬Safely Step D P t)
    {s t : σ} {as : List α} (hs : I s) :
    Run (Into Step (Safely Step D P)) s as t ↔ Run (When Step C) s as t := by
  constructor
  · intro h
    induction h with
    | nil s => exact .nil s
    | cons hstep _ ih =>
        obtain ⟨hstep, hsafe⟩ := hstep
        have hC := Classical.byContradiction fun hC =>
          hlost _ _ _ hs hstep hC hsafe
        exact .cons ⟨hstep, hC⟩ (ih (hkeep _ _ _ hs hstep hC))
  · intro h
    induction h with
    | nil s => exact .nil s
    | cons hstep _ ih =>
        obtain ⟨hstep, hC⟩ := hstep
        have ht := hkeep _ _ _ hs hstep hC
        have hsafe := safely_of_invariant
          (fun s a t hI hst hD => hkeep s a t hI hst (hquiet s a hD)) hP ht
        exact .cons ⟨hstep, hsafe⟩ (ih ht)

end Runs
