import CodeAtlas.Json.Value

/-! The model that writes a README, and what is needed to reach it. -/

namespace CodeAtlas.Readme

def defaultModel : String := "gemini-2.0-flash"

inductive AccessError
  | clientMissing
  | keyMissing
  deriving DecidableEq, Repr

def AccessError.message : AccessError → String
  | clientMissing => "Please install: pip install google-genai"
  | keyMissing => "❌ GEMINI_API_KEY not found in .env"

structure Access where
  key : String
  model : String
  deriving DecidableEq, Repr

def access (hasClient : Bool) (key : Option String) : Except AccessError Access :=
  if hasClient then
    match key with
    | some key => if key = "" then .error .keyMissing else .ok ⟨key, defaultModel⟩
    | none => .error .keyMissing
  else .error .clientMissing

/-- What a model sends back: a value meant as text, something else that can be shown, or a
refusal. -/
inductive Answer
  | text (value : Json)
  | shown (text : String)
  | refused (message : String)
  deriving Repr

end CodeAtlas.Readme
