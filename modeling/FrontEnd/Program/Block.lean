import FrontEnd.Program.Basic
/-!
# FrontEnd — walking blocks

The statements of a block stand in one run with the bodies inside them,
so to get from one direct child to the next is to skip the child's
body. A statement takes one place, and as many more as its body is
long: its `slotCount`. All skipping is done here.
-/

namespace FrontEnd

/-- The direct children of a block, and the offset behind the last one.
That offset is the block's length when the bodies fit the block. -/
structure Children where
  ids : List StmtId
  stop : Nat

namespace Program

/-- The body of a statement, if it has one. -/
def bodyOf (p : Program) (s : StmtId) : Except Fault (Option Block) := do
  match (← p.stmts.get s).kind with
  | .function f => return some (← p.functions.get f).body
  | .nest _ body => return some body
  | _ => return none

/-- Change the body of a statement, wherever it is kept. There is no
answer for a statement without one. -/
def updateBody (p : Program) (s : StmtId) (change : Block → Block) :
    Except Fault (Option Program) := do
  match (← p.stmts.get s).kind with
  | .function f =>
    let functions ← p.functions.update f fun r => { r with body := change r.body }
    return some { p with functions }
  | .nest head body =>
    let stmts := p.stmts.modify s fun r => { r with kind := .nest head (change body) }
    return some { p with stmts }
  | _ => return none

/-- How many places of its block a statement takes. -/
def slotCount (p : Program) (s : StmtId) : Except Fault Nat := do
  return match ← p.bodyOf s with
    | some body => 1 + body.len
    | none => 1

/-- The children from an offset on. A block of `len` places holds no
more than `len` of them. -/
def childrenFrom (p : Program) (b : Block) : (places : Nat) → (offset : Nat) →
    Except Fault Children
  | 0, offset => return ⟨[], offset⟩
  | places + 1, offset => do
    if offset < b.len then
      let child := b.stmtAt offset
      let slots ← p.slotCount child
      let rest ← p.childrenFrom b places (offset + slots)
      return ⟨child :: rest.ids, rest.stop⟩
    else return ⟨[], offset⟩

/-- The direct children of a block, in order. -/
def children (p : Program) (b : Block) : Except Fault Children := p.childrenFrom b b.len 0

/-- Where the child after the one at `offset` stands, if there is one. -/
def nextOffset (p : Program) (b : Block) (offset : Nat) : Except Fault (Option Nat) := do
  let next := offset + (← p.slotCount (b.stmtAt offset))
  return if next < b.len then some next else none

/-- The offsets reached from `offset` by going on from child to child. -/
def offsetsFrom (p : Program) (b : Block) : (places : Nat) → (offset : Nat) →
    Except Fault (List Nat)
  | 0, _ => return []
  | places + 1, offset => do
    match ← p.nextOffset b offset with
    | some next => return offset :: (← p.offsetsFrom b places next)
    | none => return [offset]

/-- The offsets of the children of a block, found one from another. -/
def offsets (p : Program) (b : Block) : Except Fault (List Nat) := p.offsetsFrom b b.len 0

/-- The block of all statements appended since there were `start`. -/
def blockSince (p : Program) (start : Nat) : Block :=
  ⟨⟨start, p.stmts.size - start⟩, .sentinel⟩

end Program

end FrontEnd
