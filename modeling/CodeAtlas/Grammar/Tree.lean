import CodeAtlas.Text.Utf8

/-! Syntax trees of languages with a grammar. A node covers the bytes from `firstByte` up to
`endByte`, and the rows from `firstRow` to `lastRow`; a field names one of its children. -/

namespace CodeAtlas.Grammar

structure Tree where
  kind : String
  firstByte : Nat
  endByte : Nat
  firstRow : Int
  lastRow : Int
  children : List Tree
  fields : List (String × Nat)
  deriving Inhabited, Repr

namespace Tree

def field? (t : Tree) (name : String) : Option Tree :=
  (t.fields.lookup name).bind fun i => t.children[i]?

def text (code : List UInt8) (t : Tree) : String :=
  String.ofList (Text.Utf8.decodeLenient ((code.take t.endByte).drop t.firstByte))

def name? (code : List UInt8) (t : Tree) : Option String := (t.field? "name").map (text code)

end Tree

end CodeAtlas.Grammar
