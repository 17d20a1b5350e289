import Lisp.Proofs.Chain
import Lisp.Proofs.Isolation

/-! Parameter lists as they are written, and what the frame of a call binds. A call makes one frame inside of
another, or fails and leaves the store as it is. -/

namespace Lisp

namespace Params

def spelling (p : Params) : List Value :=
  p.positional.map .symbol ++ p.rest.elim [] fun rest => [.symbol "&", .symbol rest]

/-- No positional parameter is named `&`, which stands before the name that takes the arguments left. That
name may be any, `&` too. -/
def Spells (p : Params) (forms : List Value) : Prop :=
  "&" ∉ p.positional ∧ p.spelling = forms

def Accepts (p : Params) (got : Nat) : Prop :=
  match p.rest with
  | some _ => p.positional.length ≤ got
  | none => got = p.positional.length

instance (p : Params) (got : Nat) : Decidable (p.Accepts got) :=
  match p with
  | ⟨names, some _⟩ => inferInstanceAs (Decidable (names.length ≤ got))
  | ⟨names, none⟩ => inferInstanceAs (Decidable (got = names.length))

/-- What is wrong with a number of arguments that is not accepted. -/
def refusal (p : Params) (got : Nat) : EvalError :=
  match p.rest with
  | some _ => .tooFewArguments p.positional.length got
  | none => .arityMismatch p.positional.length got

/-- The environment `e` of a call, made inside of `parent`, and what names mean in it. -/
structure BoundIn (p : Params) (parent : Env) (args : List Value) (σ : Store) (e : Env) (τ : Store) : Prop where
  added : ∃ f, f.parent = some parent ∧ σ.addFrame f = (e, τ)
  rest {name : String} (h : p.rest = some name) :
    τ.find? e name = some (.list (args.drop p.positional.length))
  positional {name : String} {i : Nat} (h : p.rest ≠ some name) (here : p.positional[i]? = some name)
    (last : ∀ j, i < j → p.positional[j]? ≠ some name) : ∃ v, args[i]? = some v ∧ τ.find? e name = some v
  outer {name : String} (h : p.rest ≠ some name) (free : name ∉ p.positional) :
    τ.find? e name = σ.find? parent name
  old {d : Env} (h : (σ.frame? d).isSome) :
    τ.frame? d = σ.frame? d ∧ ∀ name, τ.find? d name = σ.find? d name

variable {p : Params} {forms : List Value} {done : List String}

theorem parseFrom_names {names : List String} (h : "&" ∉ names) :
    parseFrom done (names.map .symbol ++ forms) = parseFrom (names.reverse ++ done) forms := by
  induction names generalizing done with
  | nil => rfl
  | cons name names ih =>
    have hname : name ≠ "&" := (List.ne_of_not_mem_cons h).symm
    rw [List.map_cons, List.cons_append, parseFrom, ih (List.not_mem_of_not_mem_cons h),
      List.reverse_cons, List.append_assoc, List.singleton_append]
    exact hname

theorem parse_spelling (h : "&" ∉ p.positional) : parse p.spelling = .ok p := by
  obtain ⟨names, rest⟩ := p
  rw [parse, spelling, parseFrom_names h, List.append_nil]
  cases rest <;> simp [parseFrom]

theorem parseFrom_sound (h : parseFrom done forms = .ok p) :
    ∃ names, "&" ∉ names ∧ p.positional = done.reverse ++ names ∧
      forms = (Params.mk names p.rest).spelling := by
  fun_induction parseFrom done forms with
  | case1 done =>
    cases h
    exact ⟨[], by simp, by simp, rfl⟩
  | case2 done rest =>
    cases h
    exact ⟨[], by simp, by simp, rfl⟩
  | case3 => cases h
  | case4 done name forms hname ih =>
    obtain ⟨names, hnames, hpositional, rfl⟩ := ih h
    exact ⟨name :: names, List.not_mem_cons_of_ne_of_not_mem (Ne.symm hname) hnames, by simpa using hpositional, rfl⟩
  | case5 => cases h

theorem parse_eq_ok_iff : parse forms = .ok p ↔ p.Spells forms := by
  constructor
  · intro h
    obtain ⟨names, hnames, hpositional, hforms⟩ := parseFrom_sound h
    obtain rfl : p.positional = names := by simpa using hpositional
    exact ⟨hnames, hforms.symm⟩
  · rintro ⟨h, rfl⟩
    exact parse_spelling h

theorem Accepts.length_le {got : Nat} (h : p.Accepts got) : p.positional.length ≤ got := by
  unfold Accepts at h
  split at h
  · exact h
  · exact Nat.le_of_eq h.symm

theorem check_of_accepts {got : Nat} (h : p.Accepts got) : p.check got = .ok () := by
  obtain ⟨names, rest⟩ := p
  cases rest with
  | none => exact if_pos h
  | some rest => exact if_neg (Nat.not_lt.mpr h)

theorem check_of_not_accepts {got : Nat} (h : ¬ p.Accepts got) : p.check got = .error (p.refusal got) := by
  obtain ⟨names, rest⟩ := p
  cases rest with
  | none => exact if_neg h
  | some rest => exact if_pos (Nat.not_le.mp h)

end Params

namespace Frame

variable {f : Frame} {name : String} {v : Value}

theorem bindAll_cons (b : String × Value) (bindings : List (String × Value)) (f : Frame) :
    f.bindAll (b :: bindings) = (f.bind b.1 b.2).bindAll bindings := rfl

theorem bindAll_append (bindings more : List (String × Value)) (f : Frame) :
    f.bindAll (bindings ++ more) = (f.bindAll bindings).bindAll more :=
  List.foldl_append

theorem bindAll_parent (bindings : List (String × Value)) (f : Frame) :
    (f.bindAll bindings).parent = f.parent := by
  induction bindings generalizing f with
  | nil => rfl
  | cons b bindings ih => exact ih _

theorem find?_bindAll_of_not_mem {names : List String} (h : name ∉ names) (args : List Value) :
    (f.bindAll (names.zip args)).find? name = f.find? name := by
  induction names generalizing f args with
  | nil => rfl
  | cons n names ih =>
    cases args with
    | nil => rfl
    | cons arg args =>
      rw [List.zip_cons_cons, bindAll_cons, ih (List.not_mem_of_not_mem_cons h),
        find?_bind_of_ne (List.ne_of_not_mem_cons h)]

theorem find?_bindAll_of_last {names : List String} {args : List Value} {i : Nat}
    (here : names[i]? = some name) (last : ∀ j, i < j → names[j]? ≠ some name) (harg : args[i]? = some v) :
    (f.bindAll (names.zip args)).find? name = some v := by
  induction names generalizing f args i with
  | nil => simp at here
  | cons n names ih =>
    cases args with
    | nil => simp at harg
    | cons arg args =>
      rw [List.zip_cons_cons, bindAll_cons]
      cases i with
      | zero =>
        obtain rfl : n = name := by simpa using here
        obtain rfl : arg = v := by simpa using harg
        have hfree : n ∉ names := fun hmem => by
          obtain ⟨j, hj⟩ := List.mem_iff_getElem?.mp hmem
          exact last (j + 1) j.succ_pos hj
        rw [find?_bindAll_of_not_mem hfree, find?_bind_self]
      | succ i => exact ih here (fun j hj => last (j + 1) (Nat.succ_lt_succ hj)) harg

end Frame

namespace Params

variable {p : Params} {parent : Env} {args : List Value} {σ : Store} {name : String}

def callFrame (p : Params) (parent : Env) (args : List Value) : Frame :=
  Frame.bindAll (p.pairs args) ⟨[], some parent⟩

theorem frame_of_accepts (h : p.Accepts args.length) (parent : Env) :
    p.frame parent args = .ok (p.callFrame parent args) := by
  rw [frame_eq, check_of_accepts h]
  rfl

theorem callFrame_parent (p : Params) (parent : Env) (args : List Value) :
    (p.callFrame parent args).parent = some parent :=
  Frame.bindAll_parent _ _

theorem find?_callFrame_rest (h : p.rest = some name) (parent : Env) (args : List Value) :
    (p.callFrame parent args).find? name = some (.list (args.drop p.positional.length)) := by
  rw [callFrame, pairs, h, Frame.bindAll_append]
  exact Frame.find?_bind_self name _ _

/-- The argument list that is left hides no other name. -/
theorem find?_callFrame_of_ne_rest (h : p.rest ≠ some name) (parent : Env) (args : List Value) :
    (p.callFrame parent args).find? name =
      (Frame.bindAll (p.positional.zip args) ⟨[], some parent⟩).find? name := by
  rw [callFrame, pairs, Frame.bindAll_append]
  cases hrest : p.rest with
  | none => rfl
  | some rest =>
    have hne : name ≠ rest := fun heq => h (heq ▸ hrest)
    exact Frame.find?_bind_of_ne hne _ _

theorem boundIn (older : σ.ParentsOlder) (known : (σ.frame? parent).isSome) (h : p.Accepts args.length) :
    p.BoundIn parent args σ (σ.addFrame (p.callFrame parent args)).1
      (σ.addFrame (p.callFrame parent args)).2 := by
  have hparent := p.callFrame_parent parent args
  have hknown : ∀ q, (p.callFrame parent args).parent = some q → (σ.frame? q).isSome := by
    rw [hparent]
    exact fun q hq => Option.some.inj hq ▸ known
  -- A name is looked for in the new frame first, then from `parent` outward as before.
  have hfind (name : String) : (σ.addFrame (p.callFrame parent args)).2.find?
      (σ.addFrame (p.callFrame parent args)).1 name =
        ((p.callFrame parent args).find? name).or (σ.find? parent name) := by
    have hp := (Store.parent?_addFrame σ (p.callFrame parent args) _).trans (if_pos rfl)
    rw [(older.addFrame hknown).find?_inner (hp.trans hparent), Store.bound?_addFrame, if_pos rfl,
      older.find?_addFrame hknown known]
  refine ⟨⟨_, hparent, rfl⟩, fun hrest => ?_, fun {name i} hrest here last => ?_, fun hrest free => ?_, ?_⟩
  · rw [hfind, find?_callFrame_rest hrest, Option.some_or]
  · obtain ⟨hi, -⟩ := List.getElem?_eq_some_iff.mp here
    have harg := List.getElem?_eq_getElem (Nat.lt_of_lt_of_le hi h.length_le)
    refine ⟨_, harg, ?_⟩
    rw [hfind, find?_callFrame_of_ne_rest hrest, Frame.find?_bindAll_of_last here last harg,
      Option.some_or]
  · rw [hfind, find?_callFrame_of_ne_rest hrest, Frame.find?_bindAll_of_not_mem free]
    rfl
  · intro d hd
    obtain ⟨g, hg⟩ := Option.isSome_iff_exists.mp hd
    exact ⟨(Store.frame?_addFrame hg _).trans hg.symm, older.find?_addFrame hknown hd⟩

end Params

/-- A list of forms is a parameter list when it spells one. A call with arguments that the parameters accept
makes one frame, in which they are bound, and any other call fails without a change of the store. -/
theorem parameters_bound (σ : Store) (parent : Env) :
    (∀ forms p, Params.parse forms = .ok p ↔ p.Spells forms) ∧
    (∀ p args, (∃ e τ, parent.enter p args σ = .value e τ) ↔ p.Accepts args.length) ∧
    (∀ p args, ¬ p.Accepts args.length → parent.enter p args σ = .failure (p.refusal args.length) σ) ∧
    (σ.ParentsOlder → (σ.frame? parent).isSome →
      ∀ p args e τ, parent.enter p args σ = .value e τ → p.BoundIn parent args σ e τ) := by
  have henter {p : Params} {args : List Value} (h : p.Accepts args.length) :
      parent.enter p args σ = .value (σ.addFrame (p.callFrame parent args)).1
        (σ.addFrame (p.callFrame parent args)).2 := by
    rw [Env.enter_apply, Params.frame_of_accepts h]
  have hrefuse {p : Params} {args : List Value} (h : ¬ p.Accepts args.length) :
      parent.enter p args σ = .failure (p.refusal args.length) σ := by
    rw [Env.enter_apply, Params.frame_eq, Params.check_of_not_accepts h]
    rfl
  have haccepts {p : Params} {args : List Value} {e : Env} {τ : Store}
      (h : parent.enter p args σ = .value e τ) : p.Accepts args.length := by
    refine Decidable.byContradiction fun hno => ?_
    rw [hrefuse hno] at h
    cases h
  refine ⟨fun forms p => Params.parse_eq_ok_iff, fun p args => ?_, fun p args => hrefuse, ?_⟩
  · exact ⟨fun ⟨e, τ, h⟩ => haccepts h, fun h => ⟨_, _, henter h⟩⟩
  · intro older known p args e τ h
    have hargs := haccepts h
    cases (henter hargs).symm.trans h
    exact Params.boundIn older known hargs

/-- A name that occurs twice has the last of its arguments, and `&` may itself name what is left. -/
theorem parameters_bound_repeated :
    let p : Params := ⟨["a", "a"], some "&"⟩
    let σ : Store := ⟨#[⟨[("a", .int 0), ("x", .int 7)], none⟩], #[], 0, .silent⟩
    let frame : Frame := ⟨[("&", .list [.int 3]), ("a", .int 2)], some ⟨0⟩⟩
    Params.parse [.symbol "a", .symbol "a", .symbol "&", .symbol "&"] = .ok p ∧
      p.Spells [.symbol "a", .symbol "a", .symbol "&", .symbol "&"] ∧
      Env.enter ⟨0⟩ p [.int 1, .int 2, .int 3] σ = .value (σ.addFrame frame).1 (σ.addFrame frame).2 ∧
      p.BoundIn ⟨0⟩ [.int 1, .int 2, .int 3] σ (σ.addFrame frame).1 (σ.addFrame frame).2 ∧
      (σ.addFrame frame).2.find? (σ.addFrame frame).1 "x" = some (.int 7) ∧
      Env.enter ⟨0⟩ p [.int 1] σ = .failure (.tooFewArguments 2 1) σ := by
  intro p σ frame
  obtain ⟨hparse, -, hrefuse, hbound⟩ := parameters_bound σ ⟨0⟩
  have older : σ.ParentsOlder :=
    (Store.ParentsOlder.empty .silent).addFrame (f := ⟨[("a", .int 0), ("x", .int 7)], none⟩) nofun
  have bound := hbound older rfl p [.int 1, .int 2, .int 3] _ _ rfl
  have houter : _ = σ.find? ⟨0⟩ "x" := bound.outer (by decide) (by decide)
  exact ⟨rfl, (hparse _ p).mp rfl, rfl, bound, houter.trans rfl, hrefuse p [.int 1] (by decide)⟩

end Lisp
