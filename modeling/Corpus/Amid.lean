/-
A program amid others: runs that record what has happened.

Between any two statements of the program the store may be changed by somebody else.  What
others may do can depend on everything that has happened so far, so a run keeps its past: a
list of events, each with the store before and after.  Others are a relation `E` that says how
they may change the store after such a past.

* `Amid` — a run of the program with steps of others in between;
* `Amidst` — a weakest precondition: whatever others do, the result satisfies `Q`;
* `amidst_stmt`, `amidst_bind` — the rules; a statement is proved with an assertion that others
  keep (`Stable`);
* `Amid.sound` — what it says of a run;
* `Each`, `Amid.leaves` — a property of every statement, with the one that follows it, and the
  steps of a run.
-/
import Corpus.Prog
import Mathlib.Data.List.Basic

namespace Prog

variable {L σ ι ε α β : Type}

/-- A step that was made: the name of the program's statement, or none if it was not the
program's, and the store before and after. -/
structure Event (L σ : Type) where
  stmt : Option L
  before : σ
  after : σ

/-- What has happened, the first event first. -/
abbrev Past (L σ : Type) := List (Event L σ)

/-- Only others have run. -/
inductive Aside (E : Past L σ → σ → σ → Prop) : Past L σ → σ → Past L σ → σ → Prop where
  | refl (past : Past L σ) (s : σ) : Aside E past s past s
  | step {past past' : Past L σ} {s s' t : σ} :
      E past s s' → Aside E (past ++ [⟨none, s, s'⟩]) s' past' t → Aside E past s past' t

/-- A run of a program with steps of others in between. -/
inductive Amid (E : Past L σ → σ → σ → Prop) :
    Prog L σ ι ε α → Past L σ → σ → Prog L σ ι ε α → Past L σ → σ → Prop where
  | refl (p : Prog L σ ι ε α) (past : Past L σ) (s : σ) : Amid E p past s p past s
  | own {l : L} {f : σ → ι → σ} {k : σ → ι → Prog L σ ι ε α} {past past' : Past L σ} {s t : σ}
      {q : Prog L σ ι ε α} (i : ι) :
      Amid E (k s i) (past ++ [⟨some l, s, f s i⟩]) (f s i) q past' t →
        Amid E (stmt l f k) past s q past' t
  | others {p q : Prog L σ ι ε α} {past past' : Past L σ} {s s' t : σ} :
      E past s s' → Amid E p (past ++ [⟨none, s, s'⟩]) s' q past' t → Amid E p past s q past' t

/-- Whatever others do between its statements and after it, the result of the program
satisfies `Q`. -/
def Amidst (E : Past L σ → σ → σ → Prop) (Q : Except ε α → Past L σ → σ → Prop) :
    Prog L σ ι ε α → Past L σ → σ → Prop
  | ret a, past, s => ∀ past' s', Aside E past s past' s' → Q (.ok a) past' s'
  | err e, past, s => ∀ past' s', Aside E past s past' s' → Q (.error e) past' s'
  | stmt l f k, past, s => ∀ past' s', Aside E past s past' s' → ∀ i,
      (k s' i).Amidst E Q (past' ++ [⟨some l, s', f s' i⟩]) (f s' i)

/-- Others keep the assertion. -/
def Stable (E : Past L σ → σ → σ → Prop) (I : Past L σ → σ → Prop) : Prop :=
  ∀ past s s', I past s → E past s s' → I (past ++ [⟨none, s, s'⟩]) s'

section Rules

variable {E : Past L σ → σ → σ → Prop} {I J : Past L σ → σ → Prop}
  {Q Q' : Except ε α → Past L σ → σ → Prop} {past past' : Past L σ} {s t : σ}

theorem Aside.trans {past₂ : Past L σ} {u : σ} (h : Aside E past s past' t)
    (h' : Aside E past' t past₂ u) : Aside E past s past₂ u := by
  induction h with
  | refl past s => exact h'
  | step hE _ ih => exact .step hE (ih h')

theorem Stable.aside (hI : Stable E I) (h : Aside E past s past' t) (hs : I past s) :
    I past' t := by
  induction h with
  | refl past s => exact hs
  | step hE _ ih => exact ih (hI _ _ _ hs hE)

theorem Stable.and (hI : Stable E I) (hJ : Stable E J) : Stable E fun past s => I past s ∧ J past s :=
  fun _ _ _ h hE => ⟨hI _ _ _ h.1 hE, hJ _ _ _ h.2 hE⟩

/-- A result that others keep. -/
theorem amidst_ret {a : α} (hQ : Stable E (Q (.ok a))) (h : Q (.ok a) past s) :
    (ret a : Prog L σ ι ε α).Amidst E Q past s :=
  fun _ _ hrun => hQ.aside hrun h

/-- A statement that starts from an assertion that others keep. -/
theorem amidst_stmt {l : L} {f : σ → ι → σ} {k : σ → ι → Prog L σ ι ε α} (hI : Stable E I)
    (h : I past s)
    (hk : ∀ past s i, I past s → (k s i).Amidst E Q (past ++ [⟨some l, s, f s i⟩]) (f s i)) :
    (stmt l f k).Amidst E Q past s :=
  fun past' s' hrun i => hk past' s' i (hI.aside hrun h)

theorem Amidst.mono (hQ : ∀ r past s, Q r past s → Q' r past s) {p : Prog L σ ι ε α} :
    ∀ {past : Past L σ} {s : σ}, p.Amidst E Q past s → p.Amidst E Q' past s := by
  induction p with
  | ret a => exact fun h past' s' hrun => hQ _ _ _ (h past' s' hrun)
  | err e => exact fun h past' s' hrun => hQ _ _ _ (h past' s' hrun)
  | stmt l f k ih => exact fun h past' s' hrun i => ih s' i (h past' s' hrun i)

/-- Others may run first. -/
theorem Amidst.aside {p : Prog L σ ι ε α} (h : p.Amidst E Q past s)
    (hrun : Aside E past s past' t) : p.Amidst E Q past' t := by
  -- The steps of others before a statement may be any number.
  cases p with
  | ret a => exact fun past₂ u hrun' => h past₂ u (hrun.trans hrun')
  | err e => exact fun past₂ u hrun' => h past₂ u (hrun.trans hrun')
  | stmt l f k => exact fun past₂ u hrun' i => h past₂ u (hrun.trans hrun') i

/-- Sequencing. -/
theorem amidst_bind {Q : Except ε β → Past L σ → σ → Prop} {g : α → Prog L σ ι ε β}
    {p : Prog L σ ι ε α} : ∀ {past : Past L σ} {s : σ}, p.Amidst E (fun r past s => match r with
      | .ok a => (g a).Amidst E Q past s
      | .error e => Q (.error e) past s) past s → (p >>= g).Amidst E Q past s := by
  induction p with
  | ret a => exact fun {past s} h => h past s (.refl past s)
  | err e => exact fun h => h
  | stmt l f k ih => exact fun h past' s' hrun i => ih s' i (h past' s' hrun i)

/-- Every run keeps the precondition of what is left. -/
theorem Amid.amidst {p q : Prog L σ ι ε α} (h : Amid E p past s q past' t)
    (hp : p.Amidst E Q past s) : q.Amidst E Q past' t := by
  -- A step of the program or of others, then the rest of the run.
  induction h with
  | refl p past s => exact hp
  | own i _ ih => exact ih (hp _ _ (.refl _ _) i)
  | others hE _ ih => exact ih (hp.aside (.step hE (.refl _ _)))

/-- The result of a run satisfies what was proved of the program. -/
theorem Amid.sound {p : Prog L σ ι ε α} {a : α} (h : Amid E p past s (ret a) past' t)
    (hp : p.Amidst E Q past s) : Q (.ok a) past' t :=
  h.amidst hp past' t (.refl past' t)

end Rules

/-! ### Running undisturbed for a while -/

/-- The rest of the program, the past and the store after so many inputs. -/
def alone : Prog L σ ι ε α → List ι → Past L σ → σ → Prog L σ ι ε α × Past L σ × σ
  | stmt l f k, i :: is, past, s => (k s i).alone is (past ++ [⟨some l, s, f s i⟩]) (f s i)
  | p, _, past, s => (p, past, s)

/-- Others need not run. -/
theorem amid_alone (E : Past L σ → σ → σ → Prop) {q : Prog L σ ι ε α} {past' : Past L σ} {t : σ}
    (is : List ι) : ∀ (p : Prog L σ ι ε α) (past : Past L σ) (s : σ),
      Amid E (p.alone is past s).1 (p.alone is past s).2.1 (p.alone is past s).2.2 q past' t →
        Amid E p past s q past' t := by
  induction is with
  | nil =>
    intro p past s h
    cases p <;> exact h
  | cons i is ih =>
    intro p past s h
    cases p with
    | ret a => exact h
    | err e => exact h
    | stmt l f k => exact .own i (ih _ _ _ h)

/-! ### What a run leaves -/

/-- The statement that a program comes to. -/
def label : Prog L σ ι ε α → Option L
  | stmt l _ _ => some l
  | _ => none

/-- The program's next step. -/
def nextOwn (past : Past L σ) : Option (Event L σ) := past.find? fun e => e.stmt.isSome

/-- The statement that comes next, of a run that ends before `q`. -/
def upcoming (past : Past L σ) (q : Prog L σ ι ε α) : Option L :=
  match nextOwn past with
  | some e => e.stmt
  | none => q.label

/-- Every statement of the program satisfies `R`, of its name, the store before and after, and
the statement that follows. -/
def Each (R : L → σ → σ → Option L → Prop) : Prog L σ ι ε α → Prop
  | stmt l f k => ∀ s i, R l s (f s i) (k s i).label ∧ (k s i).Each R
  | _ => True

/-- Every step starts from the store that the one before it left. -/
def Chain : σ → Past L σ → σ → Prop
  | s, [], t => s = t
  | s, e :: past, t => e.before = s ∧ Chain e.after past t

section Leaves

variable {E : Past L σ → σ → σ → Prop} {p q : Prog L σ ι ε α} {past past' : Past L σ} {s t : σ}

theorem Chain.of_append : ∀ {a b : Past L σ} {s : σ}, Chain s (a ++ b) t →
    ∃ u, Chain s a u ∧ Chain u b t
  | [], _, s, h => ⟨s, rfl, h⟩
  | _ :: _, _, _, h => by
    obtain ⟨u, ha, hb⟩ := of_append h.2
    exact ⟨u, ⟨h.1, ha⟩, hb⟩

/-- What no step changes is the same at the end. -/
theorem Chain.kept {β : Type} {g : σ → β} : ∀ {past : Past L σ} {s : σ}, Chain s past t →
    (∀ e ∈ past, g e.after = g e.before) → g t = g s
  | [], _, h, _ => congrArg g h.symm
  | e :: past, s, h, hkeep => by
    have hrest := h.2.kept fun e he => hkeep e (List.mem_cons_of_mem _ he)
    rw [hrest, hkeep e (List.mem_cons_self ..), h.1]

/-- **What a run leaves**: a chain of steps, the first own one that of the program, and each own
step as its statement has it. -/
theorem Amid.leaves (h : Amid E p past s q past' t) : ∃ new, past' = past ++ new ∧
    Chain s new t ∧ upcoming new q = p.label ∧
      ∀ R : L → σ → σ → Option L → Prop, p.Each R → ∀ a e c l, new = a ++ e :: c →
        e.stmt = some l → R l e.before e.after (upcoming c q) := by
  -- A step of the program or of others, in front of those of the rest.
  induction h with
  | refl p past s => exact ⟨[], (List.append_nil _).symm, rfl, rfl, fun R _ a e c l h => by simp at h⟩
  | @own l f k past past' s t q i hrest ih =>
    obtain ⟨new, rfl, hchain, hup, heach⟩ := ih
    refine ⟨⟨some l, s, f s i⟩ :: new, by simp, ⟨rfl, hchain⟩, rfl, fun R hR a e c l' hnew hl => ?_⟩
    cases a with
    | nil =>
      obtain ⟨rfl, rfl⟩ := List.cons.inj hnew
      obtain rfl := Option.some.inj hl
      rw [hup]
      exact (hR s i).1
    | cons x a => exact heach R (hR s i).2 a e c l' (List.cons.inj hnew).2 hl
  | @others p q past past' s s' t hE hrest ih =>
    obtain ⟨new, rfl, hchain, hup, heach⟩ := ih
    refine ⟨⟨none, s, s'⟩ :: new, by simp, ⟨rfl, hchain⟩, hup, fun R hR a e c l' hnew hl => ?_⟩
    cases a with
    | nil =>
      obtain ⟨rfl, rfl⟩ := List.cons.inj hnew
      cases hl
    | cons x a => exact heach R hR a e c l' (List.cons.inj hnew).2 hl

end Leaves

end Prog
