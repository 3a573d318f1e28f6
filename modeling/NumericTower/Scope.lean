/-!
# Scopes

A stack of scopes, each with the names bound in it. The top-level scope is always there; a name is looked
up from the innermost scope outward.
-/

namespace NumericTower

/-- The names bound in one scope, each once, in the order in which they were first bound. -/
abbrev Frame (α : Type) := List (String × α)

namespace Frame

variable {α : Type}

/-- What a name is bound to. -/
def find? (frame : Frame α) (name : String) : Option α :=
  frame.lookup name

/-- Binds a name; a name that is bound already is bound anew in its place. -/
def insert (frame : Frame α) (name : String) (v : α) : Frame α :=
  match frame with
  | [] => [(name, v)]
  | (n, w) :: rest => if n = name then (n, v) :: rest else (n, w) :: insert rest name v

/-- The bindings of `outer` that `inner` does not shadow, after those of `inner`. -/
def shadow (inner outer : Frame α) : Frame α :=
  inner ++ outer.filter fun b => (inner.find? b.1).isNone

end Frame

/-- The nested scopes, innermost first, above the top-level scope. -/
structure Scopes (α : Type) where
  nested : List (Frame α)
  top : Frame α

namespace Scopes

variable {α : Type}

/-- The top-level scope alone, with nothing bound. -/
def empty : Scopes α := ⟨[], []⟩

instance : Inhabited (Scopes α) := ⟨empty⟩

/-- All scopes, innermost first. -/
def frames (s : Scopes α) : List (Frame α) :=
  s.nested ++ [s.top]

/-- How many scopes are open above the top level. -/
def depth (s : Scopes α) : Nat :=
  s.nested.length

/-- Opens a scope. -/
def enter (s : Scopes α) : Scopes α :=
  { s with nested := [] :: s.nested }

/-- Closes the innermost scope and hands out its bindings; the top-level scope is never closed. -/
def leave (s : Scopes α) : Option (Frame α) × Scopes α :=
  match s.nested with
  | [] => (none, s)
  | frame :: outer => (some frame, { s with nested := outer })

/-- What a name is bound to in the innermost scope that binds it. -/
def find? (s : Scopes α) (name : String) : Option α :=
  s.frames.findSome? (·.find? name)

/-- The bindings of the innermost scope. -/
def innermost (s : Scopes α) : Frame α :=
  match s.nested with
  | [] => s.top
  | frame :: _ => frame

/-- Binds a name in the innermost scope, and says what it was bound to there. -/
def insert (s : Scopes α) (name : String) (v : α) : Option α × Scopes α :=
  (s.innermost.find? name,
    match s.nested with
    | [] => { s with top := s.top.insert name v }
    | frame :: outer => { s with nested := frame.insert name v :: outer })

/-- Binds a name in the top-level scope, and says what it was bound to there. -/
def insertTop (s : Scopes α) (name : String) (v : α) : Option α × Scopes α :=
  (s.top.find? name, { s with top := s.top.insert name v })

/-- Every name that is bound, once, with what it is bound to in the innermost scope that binds it. -/
def visible (s : Scopes α) : Frame α :=
  s.frames.foldl Frame.shadow []

end Scopes

end NumericTower
