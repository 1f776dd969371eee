import CodeAtlas.Metta.Cursor
import CodeAtlas.Proofs.Metta.Nodes

/-! The readers move by move. A script looks at the next token, takes it, calls readers and ends
with a node or with nothing; it fails where it asks something of a token that is missing. Nothing
bounds how long a script runs: it may go on for ever, and then it has no outcome. -/

namespace CodeAtlas.Metta

/-- The readers, each with what it is called with. The loop over the top level and the loop over the
items of a form are readers too, called with the node as it is so far and once for each pass. -/
inductive Routine
  | program
  | topLevels (root : Node)
  | topLevel
  | comment
  | execution
  | form
  | definition (line : Int)
  | signature
  | call (line : Int)
  | items (parent : Node)
  | item
  | atom

inductive Script
  | finish (node? : Option Node)
  | fail (error : StepError)
  | peek (next : Option Token → Script)
  | advance (next : Option Token → Script)
  | call (routine : Routine) (next : Option Node → Script)

def isNext (kind : TokenKind) (t? : Option Token) : Bool := t?.any (·.kind = kind)

def Node.addAny (node : Node) (child? : Option Node) : Node := child?.elim node node.addChild

def executionNode (mark : Token) (body? : Option Node) : Node :=
  body?.elim (.leaf .execution "!" mark.line) fun body =>
    (Node.make .execution "!" mark.line (some body.lastLine)).addChild body

namespace Script

def ask (t? : Option Token) (missing : StepError) (next : Token → Script) : Script :=
  t?.elim (fail missing) next

def close (closed : Node → Option Token → Node) (node? : Option Node) : Script :=
  peek fun t? =>
    if isNext .closeParen t? then
      advance fun r? => node?.elim (finish none) fun node =>
        ask r? .noLine fun r => finish (some (closed node (some r)))
    else finish node?

end Script

def Routine.script : Routine → Script
  | .program => .call (.topLevels (.leaf .program "" 1)) .finish
  | .topLevels root => .peek fun t? =>
    if t?.isNone then .finish (some root)
    else .call .topLevel fun node? => .call (.topLevels (root.addAny node?)) .finish
  | .topLevel => .peek fun t? =>
    if t?.isNone then .finish none
    else if isNext .comment t? then .call .comment .finish
    else if isNext .execute t? then .call .execution .finish
    else if isNext .openParen t? then .call .form .finish
    else .advance fun _ => .finish none
  | .comment => .advance fun t? => .ask t? .noText fun t => .finish (some (Parser.comment t))
  | .execution => .advance fun mark? => .peek fun t? =>
    -- The mark is asked for its line only when the form has been read.
    if isNext .openParen t? then
      .call .form fun body? => .ask mark? .noLine fun mark => .finish (executionNode mark body?)
    else .ask mark? .noLine fun mark => .finish (executionNode mark none)
  | .form => .advance fun l? => .ask l? .noLine fun l => .peek fun t? =>
    if t?.isNone then .finish (some (.leaf .emptyExpression "" l.line))
    else if isNext .closeParen t? then
      .advance fun _ => .finish (some (.leaf .emptyExpression "" l.line))
    else if isNext .equals t? then .call (.definition l.line) (.close Node.closedAt)
    else .call (.call l.line) (.close Node.closedAt)
  | .definition line => .advance fun _ => .peek fun t? =>
    if isNext .openParen t? then
      .call .signature fun head? =>
        .call (.items ((Node.leaf .definition "" line).addAny head?)) .finish
    else .call (.items (.leaf .definition "" line)) .finish
  | .signature => .advance fun _ => .peek fun t? =>
    if t?.isNone || isNext .closeParen t? then .finish none
    else .advance fun name? => .ask name? .noText fun name =>
      .call (.items (.leaf .signature name.text name.line)) (.close Node.signatureClosedAt)
  | .call line => .call (.items (.leaf .expression "" line)) .finish
  | .items parent => .peek fun t? =>
    if t?.isNone || isNext .closeParen t? then .finish (some parent)
    else .call .item fun child? => .call (.items (parent.addAny child?)) .finish
  | .item => .peek fun t? =>
    if t?.isNone then .finish none
    else if isNext .openParen t? then .call .form .finish
    else .call .atom .finish
  | .atom => .advance fun t? => .finish (t?.map Parser.atom)

abbrev Outcome := Except StepError (Option Node)

def indexAfter (tokens : List Token) (i : Nat) : Nat := if i < tokens.length then i + 1 else i

inductive Ends (tokens : List Token) : Script → Nat → Outcome → Nat → Prop
  | finish {node? : Option Node} {i : Nat} : Ends tokens (.finish node?) i (.ok node?) i
  | fail {error : StepError} {i : Nat} : Ends tokens (.fail error) i (.error error) i
  | peek {next : Option Token → Script} {i j : Nat} {outcome : Outcome} :
      Ends tokens (next tokens[i]?) i outcome j → Ends tokens (.peek next) i outcome j
  | advance {next : Option Token → Script} {i j : Nat} {outcome : Outcome} :
      Ends tokens (next tokens[i]?) (indexAfter tokens i) outcome j →
      Ends tokens (.advance next) i outcome j
  | call {routine : Routine} {next : Option Node → Script} {i j k : Nat} {node? : Option Node}
      {outcome : Outcome} :
      Ends tokens routine.script i (.ok node?) j → Ends tokens (next node?) j outcome k →
      Ends tokens (.call routine next) i outcome k
  | passOn {routine : Routine} {next : Option Node → Script} {i j : Nat} {error : StepError} :
      Ends tokens routine.script i (.error error) j →
      Ends tokens (.call routine next) i (.error error) j

/-- In the run of a script from index `i` on, there is a moment at which the index is `j` and
another script is what is left to do, of the run itself or of a reader that it has called. -/
inductive Reaches (tokens : List Token) : Script → Nat → Script → Nat → Prop
  | refl {script : Script} {i : Nat} : Reaches tokens script i script i
  | peek {next : Option Token → Script} {script : Script} {i j : Nat} :
      Reaches tokens (next tokens[i]?) i script j → Reaches tokens (.peek next) i script j
  | advance {next : Option Token → Script} {script : Script} {i j : Nat} :
      Reaches tokens (next tokens[i]?) (indexAfter tokens i) script j →
      Reaches tokens (.advance next) i script j
  | enter {routine : Routine} {next : Option Node → Script} {script : Script} {i j : Nat} :
      Reaches tokens routine.script i script j → Reaches tokens (.call routine next) i script j
  | resume {routine : Routine} {next : Option Node → Script} {script : Script} {i j k : Nat}
      {node? : Option Node} :
      Ends tokens routine.script i (.ok node?) j → Reaches tokens (next node?) j script k →
      Reaches tokens (.call routine next) i script k

theorem isNext_some {kind : TokenKind} {t : Token} :
    isNext kind (some t) = true ↔ t.kind = kind := by simp [isNext]

theorem not_isNext {kind : TokenKind} {t? : Option Token} (h : ∀ t ∈ t?, t.kind ≠ kind) :
    ¬ isNext kind t? = true := by
  cases t? with
  | none => simp [isNext]
  | some t => exact mt isNext_some.1 (h t rfl)

section
variable {tokens : List Token} {script script' : Script} {i j k : Nat} {outcome : Outcome}

theorem indexAfter_le (h : i ≤ tokens.length) : indexAfter tokens i ≤ tokens.length := by
  rw [indexAfter]
  split <;> omega

theorem Ends.unique (h : Ends tokens script i outcome j) {outcome' : Outcome} {j' : Nat}
    (h' : Ends tokens script i outcome' j') : outcome = outcome' ∧ j = j' := by
  induction h generalizing outcome' j' with
  | finish =>
    cases h'
    exact ⟨rfl, rfl⟩
  | fail =>
    cases h'
    exact ⟨rfl, rfl⟩
  | peek _ ih =>
    cases h' with
    | peek h' => exact ih h'
  | advance _ ih =>
    cases h' with
    | advance h' => exact ih h'
  | call _ _ ih ih' =>
    cases h' with
    | call hcall hnext =>
      obtain ⟨hnode, rfl⟩ := ih hcall
      cases hnode
      exact ih' hnext
    | passOn hcall =>
      obtain ⟨hnode, -⟩ := ih hcall
      cases hnode
  | passOn _ ih =>
    cases h' with
    | call hcall _ =>
      obtain ⟨herror, -⟩ := ih hcall
      cases herror
    | passOn hcall =>
      obtain ⟨herror, rfl⟩ := ih hcall
      cases herror
      exact ⟨rfl, rfl⟩

theorem Ends.le_length (h : Ends tokens script i outcome j) (hi : i ≤ tokens.length) :
    j ≤ tokens.length := by
  induction h with
  | finish => exact hi
  | fail => exact hi
  | peek _ ih => exact ih hi
  | advance _ ih => exact ih (indexAfter_le hi)
  | call _ _ ih ih' => exact ih' (ih hi)
  | passOn _ ih => exact ih hi

theorem Reaches.le_length (h : Reaches tokens script i script' j) (hi : i ≤ tokens.length) :
    j ≤ tokens.length := by
  induction h with
  | refl => exact hi
  | peek _ ih => exact ih hi
  | advance _ ih => exact ih (indexAfter_le hi)
  | enter _ ih => exact ih hi
  | resume hends _ ih => exact ih (hends.le_length hi)

theorem Reaches.trans {last : Script} (h : Reaches tokens script i script' j)
    (h' : Reaches tokens script' j last k) : Reaches tokens script i last k := by
  induction h with
  | refl => exact h'
  | peek _ ih => exact .peek (ih h')
  | advance _ ih => exact .advance (ih h')
  | enter _ ih => exact .enter (ih h')
  | resume hends _ ih => exact .resume hends (ih h')

/-- A failure is never caught, so a run that ends well has gone well at every moment. -/
theorem Reaches.ends_ok (h : Reaches tokens script i script' j) {node? : Option Node}
    (hends : Ends tokens script i (.ok node?) k) :
    ∃ node?' k', Ends tokens script' j (.ok node?') k' := by
  induction h generalizing node? k with
  | refl => exact ⟨node?, k, hends⟩
  | peek _ ih =>
    cases hends with
    | peek hends => exact ih hends
  | advance _ ih =>
    cases hends with
    | advance hends => exact ih hends
  | enter _ ih =>
    cases hends with
    | call hcall _ => exact ih hcall
  | resume hcall _ ih =>
    cases hends with
    | call hcall' hnext =>
      obtain ⟨hnode, rfl⟩ := hcall.unique hcall'
      cases hnode
      exact ih hnext

end

def Yields (tokens : List Token) (script : Script) (ahead : List Token) (outcome : Outcome)
    (left : List Token) : Prop :=
  ∀ i ≤ tokens.length, tokens.drop i = ahead →
    ∃ j ≤ tokens.length, Ends tokens script i outcome j ∧ tokens.drop j = left

namespace Yields

variable {tokens ahead middle left : List Token} {t : Token} {outcome : Outcome}
  {node? : Option Node} {error : StepError} {routine : Routine}
  {next : Option Token → Script} {goOn : Option Node → Script}

theorem finish : Yields tokens (.finish node?) ahead (.ok node?) ahead :=
  fun i hi hahead => ⟨i, hi, .finish, hahead⟩

theorem fail : Yields tokens (.fail error) ahead (.error error) ahead :=
  fun i hi hahead => ⟨i, hi, .fail, hahead⟩

theorem peek (h : Yields tokens (next ahead.head?) ahead outcome left) :
    Yields tokens (.peek next) ahead outcome left := by
  rintro i hi rfl
  obtain ⟨j, hj, hends, hleft⟩ := h i hi rfl
  rw [List.head?_drop] at hends
  exact ⟨j, hj, .peek hends, hleft⟩

theorem advance (h : Yields tokens (next ahead.head?) ahead.tail outcome left) :
    Yields tokens (.advance next) ahead outcome left := by
  rintro i hi rfl
  have hindex : tokens.drop (indexAfter tokens i) = (tokens.drop i).tail := by
    rw [List.tail_drop, indexAfter]
    split
    · rfl
    · rw [List.drop_eq_nil_of_le (by omega), List.drop_eq_nil_of_le (by omega)]
  obtain ⟨j, hj, hends, hleft⟩ := h _ (indexAfter_le hi) hindex
  rw [List.head?_drop] at hends
  exact ⟨j, hj, .advance hends, hleft⟩

theorem call (h : Yields tokens routine.script ahead (.ok node?) middle)
    (h' : Yields tokens (goOn node?) middle outcome left) :
    Yields tokens (.call routine goOn) ahead outcome left := by
  intro i hi hahead
  obtain ⟨j, hj, hcall, hmiddle⟩ := h i hi hahead
  obtain ⟨k, hk, hnext, hleft⟩ := h' j hj hmiddle
  exact ⟨k, hk, .call hcall hnext, hleft⟩

end Yields

end CodeAtlas.Metta
