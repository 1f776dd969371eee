import CodeAtlas.Path

/-! The stages of the documentation pipeline, and the places that they read and write. -/

namespace CodeAtlas.Pipeline

structure Layout where
  root : String
  interpreter : String

namespace Layout

def report (l : Layout) : String := l.root ++ "/docs/ast_summary.json"
def readme (l : Layout) : String := l.root ++ "/README_docs.md"
def page (l : Layout) : String := l.root ++ "/docs/index.html"
def converter (l : Layout) : String := l.root ++ "/tools/md_to_html.py"

end Layout

inductive Stage
  | grammars
  | survey
  | readme
  | page
  deriving DecidableEq, Repr

end CodeAtlas.Pipeline
