import ConsLisp.Store.Basic

/-!
# Listing the visible bindings

The listing of a frame shows every name that can be looked up from it, once, with the value that
looking it up gives. Names are in the order of their bytes.

## Main definitions

* `nameBytes`: the bytes of a name.
* `Bindings.insertSorted`: adds a binding to a sorted listing, unless its name is listed already.
* `State.visible`: the listing of a frame.
-/

namespace ConsLisp

/-- The bytes of a name, by which listings are ordered. -/
def nameBytes (x : String) : List UInt8 :=
  x.toUTF8.data.toList

/-- Adds a binding to a listing in the order of name bytes. A name that is listed keeps its
value. -/
def Bindings.insertSorted (p : String × Value) : Bindings → Bindings
  | [] => [p]
  | q :: b =>
    if p.1 = q.1 then q :: b
    else if nameBytes p.1 < nameBytes q.1 then p :: q :: b
    else q :: insertSorted p b

/-- The bindings that can be seen from a frame, those of inner frames hiding those of outer ones,
in the order of name bytes. -/
def State.visible (σ : State) (i : FrameId) : Bindings :=
  ((σ.chain i).flatMap σ.bindingsOf).foldl (fun listing p => listing.insertSorted p) []

/-- The one-line summary of a frame: the number of its own bindings and of the frames around
it. -/
def State.frameText (σ : State) (i : FrameId) : String :=
  "Environment \x7b bindings: " ++ toString (σ.bindingsOf i).length ++ ", depth: " ++
    toString ((σ.chain i).length - 1) ++ " \x7d"

end ConsLisp
