import SimpleLR.Grammar.Text

/-!
# Items

An item is a production with a dot in its right-hand side: what stands before the dot has been
recognised.  The items of a grammar are numbered.  The first two are the *augmenting* items
`$accept := . S $end` and `$accept := S . $end`, which belong to no production.  They are followed,
production by production, by an item for each place of the dot behind the first symbol.  The place
in front of a non-empty right-hand side has no item: the automaton moves over the first symbol
straight to the next place.  An empty right-hand side has the one place that there is.

## Main Definitions

* `Item` — a place of the dot, with the number of the item
* `Item.next?` — the symbol after the dot and the item behind it
* `ItemTable`, `Grammar.itemTable` — all items, and the first item of each production
* `ItemTable.itemId?`, `ItemTable.locate?` — from place to number and back

## Design Notes

Moving the dot over a symbol is adding one to the number of the item.
-/

namespace SimpleLR

/-- A production with a dot in its right-hand side. -/
structure Item where
  /-- The number of the item. -/
  id : Nat
  /-- The production; `none` for the augmenting items. -/
  production : Option Production
  /-- The number of symbols before the dot. -/
  position : Nat
  deriving DecidableEq, Repr

namespace Item

/-- Whether the item belongs to no production. -/
def isAugmenting (i : Item) : Bool := i.production.isNone

/-- The left-hand side; `none` for the augmenting items. -/
def lhs? (i : Item) : Option Nat := i.production.map (·.lhs)

/-- The symbol after the dot, if the dot can move over it.  In the second augmenting item the end
of the input comes next, but it is never moved over. -/
def nextSymbol? (i : Item) : Option Nat :=
  match i.production with
  | some p => p.rhs[i.position]?
  | none => if i.position = 0 then some Grammar.start else none

/-- The symbol after the dot, with the item behind it. -/
def next? (i : Item) : Option (Nat × Nat) := i.nextSymbol?.map fun x => (x, i.id + 1)

/-- The item behind the symbol after the dot. -/
def nextItem? (i : Item) : Option Nat := i.next?.map (·.2)

/-- Whether the dot can move. -/
def canMove (i : Item) : Bool := i.nextSymbol?.isSome

/-- Whether the dot is at the end of a production. -/
def canReduce (i : Item) : Bool :=
  match i.production with
  | some p => i.position == p.rhs.length
  | none => false

/-- Whether everything up to the end of the input has been recognised. -/
def canAccept (i : Item) : Bool := i.production.isNone && i.position == 1

/-- The words of a right-hand side with a dot after the first `position` of them. -/
def dotted (position : Nat) (words : List String) : List String :=
  words.take position ++ (if position ≤ words.length then ["."] else []) ++ words.drop position

/-- An item such as `E := E . + T`. -/
def text (g : Grammar) (i : Item) : String :=
  match i.production with
  | some p => g.nameOf p.lhs ++ " :=" ++ Text.spaced (dotted i.position (p.rhs.map g.nameOf))
  | none =>
    "$accept :=" ++
      Text.spaced (dotted i.position [g.nameOf Grammar.start, g.nameOf g.endOfInput])

end Item

/-- The places of the dot in a production that have an item. -/
def Production.positions (p : Production) : List Nat :=
  if p.rhs.isEmpty then [0] else List.range' 1 p.rhs.length

/-- The items of a grammar. -/
structure ItemTable where
  /-- All items, in the order of their numbers. -/
  items : List Item
  /-- The first item of each production, in the order of the productions. -/
  starts : List Nat

namespace Grammar

/-- The number of the first augmenting item, from which the automaton starts. -/
def startItem : Nat := 0

/-- The number of the second augmenting item, in which the input is accepted. -/
def acceptItem : Nat := 1

/-- All places of the dot: those of the augmenting items, then those of the productions in turn. -/
def dots (g : Grammar) : List (Option Production × Nat) :=
  [(none, 0), (none, 1)] ++ g.productions.flatMap fun p => p.positions.map fun k => (some p, k)

/-- The first item of each of the given productions, if the items of the first one begin at
`base`. -/
def startsFrom (base : Nat) : List Production → List Nat
  | [] => []
  | p :: ps => base :: startsFrom (base + p.positions.length) ps

/-- The items of a grammar, numbered. -/
def itemTable (g : Grammar) : ItemTable where
  items := g.dots.mapIdx fun i d => ⟨i, d.1, d.2⟩
  starts := startsFrom 2 g.productions

end Grammar

namespace ItemTable

/-- The number of items. -/
def size (t : ItemTable) : Nat := t.items.length

/-- The item with a given number. -/
def item? (t : ItemTable) (id : Nat) : Option Item := t.items[id]?

/-- The first item of a production: behind its first symbol, or the only one if it is empty. -/
def startOf (t : ItemTable) (p : Production) : Nat := t.starts[p.seq]?.getD 0

/-- The number of the item with the dot at a given place, if that place has an item. -/
def itemId? (t : ItemTable) (p : Production) (position : Nat) : Option Nat :=
  if p.rhs.isEmpty then
    if position = 0 then some (t.startOf p) else none
  else if 1 ≤ position ∧ position ≤ p.rhs.length then some (t.startOf p + position - 1)
  else none

/-- The production and the place of the dot of an item; `none` for the augmenting items. -/
def locate? (t : ItemTable) (id : Nat) : Option (Production × Nat) :=
  (t.item? id).bind fun i => i.production.map fun p => (p, i.position)

end ItemTable

end SimpleLR
