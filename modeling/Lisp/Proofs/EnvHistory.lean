import Lisp.Proofs.Chain
import Lisp.Proofs.Isolation
import Lisp.Proofs.Rules

/-! Environments and what was done to them. A history tells which frames were made inside of which others and
what was bound in them, in order. What a name means, how deep an environment is and which frame is its
outermost follow from the history alone. -/

namespace Lisp

inductive EnvEvent
  | made (e : Env) (parent : Option Env)
  | bound (e : Env) (name : String) (v : Value)

/-- What was done, last first. -/
abbrev EnvHistory := List EnvEvent

namespace EnvHistory

def Known (log : EnvHistory) (e : Env) : Prop :=
  ∃ parent, .made e parent ∈ log

/-- The frames that were made one inside of the other, from a frame outward to one inside of no other. -/
inductive ChainOf (log : EnvHistory) : Env → List Env → Prop
  | outermost {e : Env} (made : .made e none ∈ log) : ChainOf log e [e]
  | inner {e p : Env} {es : List Env} (made : .made e (some p) ∈ log) (outer : ChainOf log p es) :
    ChainOf log e (e :: es)

/-- The name was bound in the frame, to this value when it was last bound there. -/
inductive LastBound (e : Env) (name : String) (v : Value) : EnvHistory → Prop
  | now (log : EnvHistory) : LastBound e name v (.bound e name v :: log)
  | before {event : EnvEvent} {log : EnvHistory} (other : ∀ w, event ≠ .bound e name w)
    (h : LastBound e name v log) : LastBound e name v (event :: log)

def NeverBound (log : EnvHistory) (e : Env) (name : String) : Prop :=
  ∀ v, .bound e name v ∉ log

/-- Looking for the name from the frame of `e` outward, no binding of it is met before the frame of `d`. -/
def Visible (log : EnvHistory) (e d : Env) (name : String) : Prop :=
  ∃ nearer farther, ChainOf log e (nearer ++ d :: farther) ∧ ∀ b ∈ nearer, NeverBound log b name

/-- The history after names were bound in a frame, in turn. -/
def bindAll (e : Env) (bindings : List (String × Value)) (log : EnvHistory) : EnvHistory :=
  bindings.foldl (fun log b => .bound e b.1 b.2 :: log) log

end EnvHistory

open EnvHistory

/-- A sequence of operations on environments, each on frames that were made before. -/
inductive EnvRun : EnvHistory → Store → Prop
  | start (output : Sink) : EnvRun [] (.empty output)
  | outermost {log : EnvHistory} {σ τ : Store} {e : Env} (run : EnvRun log σ)
    (made : Env.outermost σ = .value e τ) : EnvRun (.made e none :: log) τ
  | child {log : EnvHistory} {σ τ : Store} {p e : Env} (run : EnvRun log σ) (known : Known log p)
    (made : p.child σ = .value e τ) : EnvRun (.made e (some p) :: log) τ
  | set {log : EnvHistory} {σ τ : Store} {e : Env} {name : String} {v : Value} (run : EnvRun log σ)
    (known : Known log e) (done : e.set name v σ = .value () τ) : EnvRun (.bound e name v :: log) τ
  | enter {log : EnvHistory} {σ τ : Store} {p e : Env} {params : Params} {args : List Value}
    (run : EnvRun log σ) (known : Known log p) (entered : p.enter params args σ = .value e τ) :
    EnvRun (bindAll e (params.pairs args) (.made e (some p) :: log)) τ
  | refused {log : EnvHistory} {σ τ : Store} {p : Env} {params : Params} {args : List Value}
    {error : EvalError} (run : EnvRun log σ) (known : Known log p)
    (refused : p.enter params args σ = .failure error τ) : EnvRun log τ
  | root {log : EnvHistory} {σ τ : Store} {e r : Env} (run : EnvRun log σ) (known : Known log e)
    (found : Action.query (·.root e) σ = .value r τ) : EnvRun log τ

/-- The store has the frames of a history, bound as the history tells. -/
structure Records (log : EnvHistory) (σ : Store) : Prop where
  made (e : Env) (parent : Option Env) :
    .made e parent ∈ log ↔ ∃ f, σ.frame? e = some f ∧ f.parent = parent
  bound (e : Env) (name : String) (v : Value) : LastBound e name v log ↔ σ.bound? name e = some v
  older : σ.ParentsOlder

variable {log : EnvHistory} {σ τ : Store} {e p d : Env} {name other : String} {v : Value}

theorem EnvHistory.lastBound_cons {event : EnvEvent} :
    LastBound e name v (event :: log) ↔
      event = .bound e name v ∨ (∀ w, event ≠ .bound e name w) ∧ LastBound e name v log := by
  constructor
  · intro h
    cases h with
    | now => exact .inl rfl
    | before other h => exact .inr ⟨other, h⟩
  · rintro (rfl | ⟨other, h⟩)
    · exact .now log
    · exact .before other h

theorem EnvHistory.exists_lastBound : (∃ v, LastBound e name v log) ↔ ∃ v, .bound e name v ∈ log := by
  induction log with
  | nil =>
    refine iff_of_false ?_ (by simp)
    rintro ⟨v, h⟩
    cases h
  | cons event log ih =>
    by_cases hevent : ∃ w, event = .bound e name w
    · obtain ⟨w, rfl⟩ := hevent
      exact iff_of_true ⟨w, .now log⟩ ⟨w, List.mem_cons_self⟩
    · have hother : ∀ w, event ≠ .bound e name w := not_exists.mp hevent
      have hne (v : Value) : EnvEvent.bound e name v ≠ event := (hother v).symm
      simpa [lastBound_cons, hother, hne] using ih

namespace Records

theorem known_iff (h : Records log σ) : Known log e ↔ (σ.frame? e).isSome := by
  simp only [Known, h.made, Option.isSome_iff_exists]
  exact ⟨fun ⟨_, f, hf, _⟩ => ⟨f, hf⟩, fun ⟨f, hf⟩ => ⟨f.parent, f, hf, rfl⟩⟩

theorem parent? (h : Records log σ) {parent : Option Env} (made : .made e parent ∈ log) :
    σ.parent? e = parent := by
  obtain ⟨f, hf, rfl⟩ := (h.made e parent).mp made
  rw [Store.parent?, hf, Option.bind_some]

theorem made_parent? (h : Records log σ) (known : Known log e) : .made e (σ.parent? e) ∈ log := by
  obtain ⟨parent, made⟩ := known
  exact h.parent? made ▸ made

theorem known_parent (h : Records log σ) (hp : σ.parent? e = some p) : Known log p :=
  h.known_iff.mpr (h.older.parent_isSome hp)

theorem neverBound_iff (h : Records log σ) : NeverBound log e name ↔ σ.bound? name e = none := by
  rw [NeverBound, ← not_exists, ← exists_lastBound, Option.eq_none_iff_forall_ne_some, not_exists]
  exact forall_congr' fun v => not_congr (h.bound e name v)

theorem empty (output : Sink) : Records [] (.empty output) where
  made e parent := by simp [Store.frame?, Store.empty]
  bound e name v := by
    refine iff_of_false (fun h => ?_) ?_
    · cases h
    · simp [Store.bound?, Store.frame?, Store.empty]
  older := .empty output

theorem addFrame (h : Records log σ) (parent : Option Env) (known : ∀ p, parent = some p → Known log p) :
    Records (.made (σ.addFrame ⟨[], parent⟩).1 parent :: log) (σ.addFrame ⟨[], parent⟩).2 where
  made e parent' := by
    rw [List.mem_cons, h.made, Store.frame?_new_or_old]
    by_cases he : e = (σ.addFrame ⟨[], parent⟩).1
    · simp [he, Store.frame?_new, eq_comm]
    · simp [he]
  bound e name v := by
    rw [lastBound_cons, h.bound, Store.bound?_addFrame]
    by_cases he : e = (σ.addFrame ⟨[], parent⟩).1
    · simp [he, Store.bound?, Store.frame?_new, Frame.find?]
    · simp [he]
  older := h.older.addFrame fun p hp => h.known_iff.mp (known p hp)

theorem bind (h : Records log σ) (known : Known log e) (name : String) (v : Value) :
    Records (.bound e name v :: log) (σ.bind e name v) where
  made d parent := by
    rw [List.mem_cons, h.made, Store.frame?_bind]
    by_cases hd : d = e
    · cases hf : σ.frame? d <;> simp [hd, Frame.bind]
    · simp [hd]
  bound d other w := by
    rw [lastBound_cons, h.bound, Store.bound?_bind]
    obtain ⟨f, hf⟩ := Option.isSome_iff_exists.mp (h.known_iff.mp known)
    by_cases hd : d = e ∧ other = name
    · obtain ⟨rfl, rfl⟩ := hd
      simp [hf]
    · have hother : ∀ u, EnvEvent.bound e name v ≠ .bound d other u := by
        intro u heq
        cases heq
        exact hd ⟨rfl, rfl⟩
      simp [hd, hother]
  older := h.older.bind e name v

/-- Names that are bound in a frame while it is made are recorded as if they were bound in it later. -/
theorem bindAll {f : Frame} (bindings : List (String × Value)) (h : Records log (σ.addFrame f).2)
    (known : Known log (σ.addFrame f).1) :
    Records (EnvHistory.bindAll (σ.addFrame f).1 bindings log)
      (σ.addFrame (f.bindAll bindings)).2 := by
  induction bindings generalizing log f with
  | nil => exact h
  | cons b bindings ih =>
    have hbind := h.bind known b.1 b.2
    rw [Store.addFrame_bind] at hbind
    obtain ⟨parent, made⟩ := known
    exact ih hbind ⟨parent, List.mem_cons_of_mem _ made⟩

theorem enter {params : Params} {args : List Value} (h : Records log σ) (known : Known log p)
    (entered : p.enter params args σ = .value e τ) :
    Records (EnvHistory.bindAll e (params.pairs args) (.made e (some p) :: log)) τ := by
  rw [Env.enter_apply, Params.frame_eq] at entered
  cases hcheck : params.check args.length with
  | error error =>
    rw [hcheck] at entered
    cases entered
  | ok =>
    rw [hcheck] at entered
    cases entered
    have hmade := h.addFrame (some p) fun q hq => Option.some.inj hq ▸ known
    exact hmade.bindAll _ ⟨some p, List.mem_cons_self⟩

end Records

theorem Env.enter_failure {params : Params} {args : List Value} {error : EvalError}
    (h : p.enter params args σ = .failure error τ) : τ = σ := by
  rw [Env.enter_apply] at h
  split at h
  · cases h
  · exact (Outcome.failure.inj h).2.symm

theorem EnvRun.records (run : EnvRun log σ) : Records log σ := by
  induction run with
  | start output => exact .empty output
  | outermost _ made ih =>
    cases made
    exact ih.addFrame none nofun
  | child _ known made ih =>
    cases made
    exact ih.addFrame (some _) fun q hq => Option.some.inj hq ▸ known
  | set _ known done ih =>
    cases done
    exact ih.bind known _ _
  | enter _ known entered ih => exact ih.enter known entered
  | refused _ _ refused ih => exact Env.enter_failure refused ▸ ih
  | root _ _ found ih =>
    cases found
    exact ih

namespace Records

theorem chainOf_iff (h : Records log σ) (known : Known log e) {es : List Env} :
    ChainOf log e es ↔ σ.chain e = es := by
  constructor
  · intro hchain
    clear known
    induction hchain with
    | outermost made => exact Store.chain_outermost (h.parent? made)
    | inner made _ ih => rw [h.older.chain_inner (h.parent? made), ih]
  · rintro rfl
    induction e using h.older.induction with
    | outermost e hp =>
      rw [Store.chain_outermost hp]
      exact .outermost (hp ▸ h.made_parent? known)
    | inner e p hp ih =>
      rw [h.older.chain_inner hp]
      exact .inner (hp ▸ h.made_parent? known) (ih (h.known_parent hp))

theorem visible_iff (h : Records log σ) (known : Known log e) :
    Visible log e d name ↔ σ.Visible e d name := by
  simp only [Visible, Store.Visible, h.chainOf_iff known, h.neverBound_iff]

theorem find?_iff (h : Records log σ) (known : Known log e) :
    σ.find? e name = some v ↔ ∃ d, Visible log e d name ∧ LastBound d name v log := by
  simp only [Store.find?_eq_some_iff, h.visible_iff known, h.bound, Store.Visible]
  constructor
  · rintro ⟨nearer, d, farther, hchain, hbound, hnearer⟩
    exact ⟨d, ⟨nearer, farther, hchain, hnearer⟩, hbound⟩
  · rintro ⟨d, ⟨nearer, farther, hchain, hnearer⟩, hbound⟩
    exact ⟨nearer, d, farther, hchain, hbound, hnearer⟩

theorem find?_eq_none_iff (h : Records log σ) :
    σ.find? e name = none ↔ ∀ d ∈ σ.chain e, NeverBound log d name := by
  simp only [Store.find?_eq_none_iff, h.neverBound_iff]

end Records

/-- What a history tells of every frame that was made in it. No name changes its meaning in an environment
when it is bound in a frame that is not on the chain, or behind another binding of it. -/
structure ChainLaw (log : EnvHistory) (σ : Store) : Prop where
  chain {e : Env} (known : Known log e) :
    ChainOf log e (σ.chain e) ∧ (σ.chain e).Nodup ∧ ∀ es, ChainOf log e es → es = σ.chain e
  found {e : Env} (known : Known log e) (name : String) (v : Value) :
    σ.find? e name = some v ↔ ∃ d, Visible log e d name ∧ LastBound d name v log
  unbound (e : Env) (name : String) :
    σ.find? e name = none ↔ ∀ d ∈ σ.chain e, NeverBound log d name
  lookup (e : Env) (name : String) :
    e.lookup name σ = .failure (.symbolNotFound name) σ ↔ ∀ d ∈ σ.chain e, NeverBound log d name
  changed {e d : Env} (known : Known log e) {name : String} {v : Value} {τ : Store}
    (done : d.set name v σ = .value () τ) (other : String) :
    τ.find? e other ≠ σ.find? e other → other = name ∧ Visible log e d name
  visible {e d : Env} (known : Known log e) (target : Known log d) {name : String} {v : Value} {τ : Store}
    (done : d.set name v σ = .value () τ) (seen : Visible log e d name) : τ.find? e name = some v
  depth {e p : Env} (made : .made e (some p) ∈ log) : σ.depth e = σ.depth p + 1
  root {e : Env} (known : Known log e) :
    σ.root e ∈ σ.chain e ∧ ∀ d ∈ σ.chain e, (σ.depth d = 1 ↔ d = σ.root e) ∧ σ.root d = σ.root e

theorem Env.lookup_eq_symbolNotFound :
    e.lookup name σ = .failure (.symbolNotFound name) σ ↔ σ.find? e name = none := by
  rw [Env.lookup_apply]
  cases σ.find? e name <;> simp

theorem EnvRun.parentsOlder (run : EnvRun log σ) : σ.ParentsOlder :=
  run.records.older

/-- Whatever was done with environments, their chains end, and what a name means in one of them is what it was
last bound to in the nearest frame that it was ever bound in. -/
theorem environments_chain (run : EnvRun log σ) : ChainLaw log σ where
  chain known :=
    have records := run.records
    ⟨(records.chainOf_iff known).mpr rfl, records.older.nodup_chain _,
      fun _ hes => ((records.chainOf_iff known).mp hes).symm⟩
  found known name v := run.records.find?_iff known
  unbound e name := run.records.find?_eq_none_iff
  lookup e name := Env.lookup_eq_symbolNotFound.trans run.records.find?_eq_none_iff
  changed {e d} known {name v τ} done other hne := by
    cases done
    rw [run.records.visible_iff known]
    exact (σ.visible_or_find?_bind e d name other v).resolve_right hne
  visible {e d} known target {name v τ} done seen := by
    cases done
    have hd := run.records.known_iff.mp target
    exact run.parentsOlder.find?_bind_of_visible ((run.records.visible_iff known).mp seen) hd v
  depth made := run.parentsOlder.depth_inner (run.records.parent? made)
  root {e} known :=
    have older := run.parentsOlder
    ⟨older.root_mem_chain e, fun d hd => ⟨older.depth_eq_one_iff_root hd, older.root_of_mem_chain e d hd⟩⟩

/-- A binding in the outermost frame that is made late is seen from within, but not behind another one. -/
theorem environments_chain_shadowed :
    let log : EnvHistory :=
      [.bound ⟨0⟩ "x" (.int 5), .bound ⟨0⟩ "y" (.int 4), .made ⟨2⟩ (some ⟨1⟩), .bound ⟨1⟩ "y" (.int 3),
        .bound ⟨1⟩ "y" (.int 2), .made ⟨1⟩ (some ⟨0⟩), .bound ⟨0⟩ "x" (.int 1), .made ⟨0⟩ none]
    let σ : Store :=
      ⟨#[⟨[("x", .int 5), ("y", .int 4)], none⟩, ⟨[("y", .int 3)], some ⟨0⟩⟩, ⟨[], some ⟨1⟩⟩], #[], 0, .silent⟩
    EnvRun log σ ∧ ChainLaw log σ ∧ σ.find? ⟨2⟩ "x" = some (.int 5) ∧ σ.find? ⟨2⟩ "y" = some (.int 3) ∧
      σ.find? ⟨2⟩ "z" = none ∧ σ.chain ⟨2⟩ = [⟨2⟩, ⟨1⟩, ⟨0⟩] ∧ σ.root ⟨2⟩ = ⟨0⟩ := by
  intro log σ
  let x : Frame := ⟨[("x", .int 1)], none⟩
  have outer : EnvRun [.bound ⟨0⟩ "x" (.int 1), .made ⟨0⟩ none] ⟨#[x], #[], 0, .silent⟩ :=
    .set (.outermost (.start .silent) rfl) ⟨none, by simp⟩ rfl
  have entered : Env.enter ⟨0⟩ ⟨["y", "y"], none⟩ [.int 2, .int 3] ⟨#[x], #[], 0, .silent⟩ =
      .value ⟨1⟩ ⟨#[x, ⟨[("y", .int 3)], some ⟨0⟩⟩], #[], 0, .silent⟩ := rfl
  have inner : EnvRun (.bound ⟨1⟩ "y" (.int 3) :: .bound ⟨1⟩ "y" (.int 2) :: .made ⟨1⟩ (some ⟨0⟩) :: _) _ :=
    outer.enter ⟨none, by simp⟩ entered
  have run : EnvRun log σ :=
    .set (.set (.child inner ⟨some ⟨0⟩, by simp⟩ rfl) ⟨none, by simp⟩ rfl) ⟨none, by simp⟩ rfl
  exact ⟨run, environments_chain run, rfl, rfl, rfl, rfl, rfl⟩

end Lisp
