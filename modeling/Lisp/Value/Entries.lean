import Lisp.Value.Equality

/-! The entries of a map. A key that occurs again keeps its first place and spelling, and takes the last
value. -/

namespace Lisp

abbrev Entries := List (Value × Value)

namespace Entries

variable {m : Type → Type} [Monad m]

/-- Gives the value `v` to the first key that is the same as `k`, or adds the entry at the end. -/
def insert (same : Value → Value → m Bool) (k v : Value) : Entries → m Entries
  | [] => pure [(k, v)]
  | (l, w) :: es => do
    if ← same l k then pure ((l, v) :: es)
    else
      let es ← insert same k v es
      pure ((l, w) :: es)

def ofList (same : Value → Value → m Bool) (pairs : List (Value × Value)) : m Entries :=
  pairs.foldlM (fun es pair => insert same pair.1 pair.2 es) []

end Entries

def Value.mapOfLiterals (pairs : List (Value × Value)) : Value :=
  .map (Id.run (Entries.ofList (fun k l => pure (k.literalEqual l)) pairs))

end Lisp
