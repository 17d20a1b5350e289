import Lisp.Proofs.LiteralEquality
import Lisp.Proofs.Outcome
import Lisp.Proofs.ReadValues

/-! Values that evaluation can make of texts: their symbols, keywords and map keys were read, and no failure
is among them. The stores of a session bind and hold no others. -/

namespace Lisp

namespace Value

open Entries (Distinct)

inductive Sourced : Value → Prop
  | int (n : Int64) : Sourced (.int n)
  | bool (b : Bool) : Sourced (.bool b)
  | nil : Sourced .nil
  | eof : Sourced .eof
  | symbol {name : String} (h : ReadableSymbol name) : Sourced (.symbol name)
  | keyword {name : String} (h : ReadableKeyword name) : Sourced (.keyword name)
  | str (text : String) : Sourced (.str text)
  | list {items : List Value} (h : ∀ v ∈ items, Sourced v) : Sourced (.list items)
  | vector {items : List Value} (h : ∀ v ∈ items, Sourced v) : Sourced (.vector items)
  | map {es : Entries} (distinct : Distinct literalEqual es) (keys : ∀ e ∈ es, Literal e.1)
    (values : ∀ e ∈ es, Sourced e.2) : Sourced (.map es)
  | function (b : Builtin) : Sourced (.function b)
  | closure {c : Closure Value} (body : Sourced c.body) : Sourced (.closure c)
  | atom (c : Cell) : Sourced (.atom c)

/-- A value whose text can not be read back, whatever is in it. -/
def IsOpaque : Value → Prop
  | .eof | .function _ | .closure _ | .atom _ => True
  | _ => False

def Plain (v : Value) : Prop :=
  ∀ x, Part x v → ¬ x.IsOpaque

theorem Plain.item {v x : Value} {items : List Value} (h : Plain v) (hv : v.items? = some items)
    (hx : x ∈ items) : Plain x :=
  fun y hy => h y (.item hv hx hy)

theorem Plain.value {es : Entries} {e : Value × Value} (h : Plain (.map es)) (he : e ∈ es) : Plain e.2 :=
  fun y hy => h y (.value he hy)

theorem Plain.atomFree {v : Value} (h : Plain v) : AtomFree v :=
  fun c hc => h (.atom c) hc trivial

end Value

namespace Literal

open Value (Part)

theorem entries {es : Entries} (h : Literal (.map es)) :
    Entries.Distinct Value.literalEqual es ∧ ∀ e ∈ es, Literal e.1 ∧ Literal e.2 := by
  generalize hv : Value.map es = v at h
  cases h with
  | @map pairs hk hv' =>
    obtain ⟨fs, hfs, hdistinct, hparts⟩ :=
      Value.mapOfLiterals_spec fun p hp => ⟨hk p hp, hv' p hp⟩
    obtain rfl := Value.map.inj (hv.trans hfs)
    exact ⟨hdistinct, hparts⟩
  | _ => cases hv

theorem items {v : Value} {items : List Value} (h : Literal v) (hv : v.items? = some items) :
    ∀ x ∈ items, Literal x := by
  cases h with
  | list h | vector h =>
    cases hv
    exact h
  | _ => cases hv

theorem part {x v : Value} (h : Literal v) (hx : Part x v) : Literal x := by
  induction hx with
  | refl => exact h
  | item hv hy _ ih => exact ih (h.items hv _ hy)
  | key he _ ih => exact ih (h.entries.2 _ he).1
  | value he _ ih => exact ih (h.entries.2 _ he).2

theorem plain {v : Value} (h : Literal v) : v.Plain := by
  intro x hx hopaque
  have hliteral := h.part hx
  cases x <;> first | exact hopaque | nomatch hliteral

theorem sourced {v : Value} (h : Literal v) : v.Sourced := by
  induction h with
  | int n => exact .int n
  | bool b => exact .bool b
  | nil => exact .nil
  | str text => exact .str text
  | symbol h => exact .symbol h
  | keyword h => exact .keyword h
  | list _ ih => exact .list ih
  | vector _ ih => exact .vector ih
  | map hk _ _ ih =>
    obtain ⟨es, hes, hdistinct, hparts⟩ := Value.mapOfLiterals_spec fun p hp => ⟨hk p hp, ih p hp⟩
    rw [hes]
    exact .map hdistinct (fun e he => (hparts e he).1) fun e he => (hparts e he).2

end Literal

theorem read_sourced {source : String} {form : Value} (h : read source = .ok form) : form.Sourced := by
  obtain rfl | hliteral := read_literal h
  · exact .eof
  · exact hliteral.sourced

namespace Value

theorem Sourced.items {v : Value} {items : List Value} (h : v.Sourced) (hv : v.items? = some items) :
    ∀ x ∈ items, x.Sourced := by
  cases h with
  | list h | vector h =>
    cases hv
    exact h
  | _ => cases hv

theorem Sourced.part {x v : Value} (h : v.Sourced) (hx : Part x v) : x.Sourced := by
  induction hx with
  | refl => exact h
  | item hv hy _ ih => exact ih (h.items hv _ hy)
  | key he _ ih =>
    cases h with
    | map _ keys _ => exact ih (keys _ he).sourced
  | value he _ ih =>
    cases h with
    | map _ _ values => exact ih (values _ he)

theorem Sourced.literal {v : Value} (h : v.Sourced) (plain : v.Plain) : Literal v := by
  induction h with
  | int n => exact .int n
  | bool b => exact .bool b
  | nil => exact .nil
  | symbol h => exact .symbol h
  | keyword h => exact .keyword h
  | str text => exact .str text
  | list _ ih => exact .list fun v hv => ih v hv (plain.item rfl hv)
  | vector _ ih => exact .vector fun v hv => ih v hv (plain.item rfl hv)
  | map distinct keys _ ih =>
    rw [← mapOfLiterals_of_distinct distinct]
    exact .map keys fun e he => ih e he (plain.value he)
  | eof | function | closure | atom => exact absurd trivial (plain _ (.refl _))

/-- The map with these keys and other values, as many as there are keys. -/
theorem Sourced.withValues {es : Entries} {values : List Value} (h : Sourced (.map es))
    (hlen : values.length = es.length) (hvalues : ∀ v ∈ values, v.Sourced) :
    Sourced (.map ((es.map Prod.fst).zip values)) := by
  cases h with
  | map distinct keys _ =>
    have hkeys : ((es.map Prod.fst).zip values).map Prod.fst = es.map Prod.fst :=
      List.map_fst_zip (by simp [hlen])
    refine .map ?_ (fun e he => ?_) fun e he => hvalues _ (List.of_mem_zip he).2
    · rw [Entries.distinct_iff_keys, hkeys]
      exact Entries.distinct_iff_keys.mp distinct
    · obtain ⟨d, hd, heq⟩ := List.mem_map.mp (List.of_mem_zip he).1
      exact heq ▸ keys d hd

/-- The keys of a map differ in every store. -/
theorem Sourced.keys_ne {es : Entries} (h : Sourced (.map es)) (cells : Cells) :
    es.Pairwise fun e f => ¬ Equal cells e.1 f.1 := by
  cases h with
  | map distinct keys _ =>
    refine distinct.imp_of_mem fun {e f} he hf hne heq => ?_
    have hatoms := (keys e he).plain.atomFree
    have hliteral := (hatoms.literalEqual_iff (keys f hf).plain.atomFree cells).mpr heq
    exact absurd hliteral (Bool.eq_false_iff.mp hne)

theorem Sourced.wellKeyed {v : Value} (h : v.Sourced) (cells : Cells) : WellKeyed cells v := by
  intro es hes
  have hmap := h.part hes
  refine ⟨fun e he => ?_, hmap.keys_ne cells⟩
  cases hmap with
  | map _ keys _ => exact (keys e he).plain.atomFree

end Value

def Frame.Sourced (f : Frame) : Prop :=
  ∀ b ∈ f.bindings, b.2.Sourced

theorem Frame.Sourced.bind {f : Frame} {v : Value} (h : f.Sourced) (hv : v.Sourced) (name : String) :
    (f.bind name v).Sourced :=
  List.forall_mem_cons.mpr ⟨hv, fun b hb => h b (List.mem_of_mem_filter hb)⟩

theorem Frame.Sourced.find? {f : Frame} {name : String} {v : Value} (h : f.Sourced)
    (hv : f.find? name = some v) : v.Sourced := by
  obtain ⟨before, after, hbindings, -⟩ := List.lookup_eq_some_iff.mp hv
  exact h (name, v) (by simp [hbindings])

namespace Store

structure Sourced (σ : Store) : Prop where
  frame {e : Env} {f : Frame} : σ.frame? e = some f → f.Sourced
  cell {v : Value} : v ∈ σ.cells → v.Sourced

namespace Sourced

variable {σ : Store} {v : Value}

/-- What neither frames nor atoms hold makes no difference. -/
theorem of_same {τ : Store} (h : σ.Sourced) (frames : τ.frames = σ.frames)
    (cells : τ.cells = σ.cells) : τ.Sourced where
  frame {e f} hf := h.frame (e := e) (by rwa [frame?, frames] at hf)
  cell hv := h.cell (cells ▸ hv)

theorem find? {env : Env} {name : String} (h : σ.Sourced) (hv : σ.find? env name = some v) :
    v.Sourced := by
  obtain ⟨e, -, hbound⟩ := List.exists_of_findSome?_eq_some hv
  obtain ⟨f, hf, hv⟩ := Option.bind_eq_some_iff.mp hbound
  exact (h.frame hf).find? hv

theorem bind (h : σ.Sourced) (hv : v.Sourced) (e : Env) (name : String) :
    (σ.bind e name v).Sourced where
  frame {d f} hf := by
    rw [frame?_bind] at hf
    split at hf
    · obtain ⟨g, hg, rfl⟩ := Option.map_eq_some_iff.mp hf
      exact (h.frame hg).bind hv name
    · exact h.frame hf
  cell := h.cell

theorem addFrame {f : Frame} (h : σ.Sourced) (hf : f.Sourced) : (σ.addFrame f).2.Sourced where
  frame {e g} hg := by
    simp only [Store.addFrame, frame?, Array.getElem?_push] at hg
    split at hg
    · obtain rfl := Option.some.inj hg
      exact hf
    · exact h.frame hg
  cell := h.cell

theorem addCell (h : σ.Sourced) (hv : v.Sourced) : (σ.addCell v).2.Sourced where
  frame := h.frame
  cell hw := by
    obtain hw | rfl := Array.mem_push.mp hw
    · exact h.cell hw
    · exact hv

theorem setContent (h : σ.Sourced) (hv : v.Sourced) (c : Cell) : (σ.setContent c v).Sourced where
  frame := h.frame
  cell hw := by
    obtain hw | rfl := Array.mem_or_eq_of_mem_setIfInBounds hw
    · exact h.cell hw
    · exact hv

theorem content (h : σ.Sourced) (c : Cell) : (σ.cells.content c).Sourced := by
  unfold Cells.content
  cases hv : σ.cells[c.slot]? with
  | none => exact .nil
  | some v => exact h.cell (Array.mem_of_getElem? hv)

end Sourced

end Store

end Lisp
