import Lisp.Action

/-! Actions on atoms. All that holds an atom sees its new content. -/

namespace Lisp

namespace Cell

/-- A new atom, which is the same as no other. -/
def make (v : Value) : Action Cell :=
  .update (·.addCell v)

def get (c : Cell) : Action Value :=
  .query (·.cells.content c)

def set (c : Cell) (v : Value) : Action Unit :=
  .modify (·.setContent c v)

end Cell

end Lisp
