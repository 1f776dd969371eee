import CodeAtlas.Text.Margin

/-! The prompt that asks a model for a README. The template is indented as a whole; the digest is
put in before the common margin is taken away, so its lines take part in that margin. -/

namespace CodeAtlas.Readme

open Text (Points)

def templateMargin : String := "        "

def instructionsBefore : List String :=
  ["You are a world-class software documentation engineer.",
    "Your task: generate a **comprehensive, professional README.md** that explains the ENTIRE codebase",
    "so thoroughly that a developer can understand the system **without reading a single line of source code**.",
    "",
    "Use the structured project summary below. It contains:",
    "- Every file, its language, and purpose",
    "- All classes, functions, and key variables",
    "- Hierarchical relationships",
    "",
    "## Requirements for the README:",
    "1. **Start with a clear title and 2-sentence overview** of the project's purpose.",
    "2. **Project Structure**: Explain the high-level architecture (e.g., parser → walker → output).",
    "3. **File-by-File Deep Dive**: For each file:",
    "   - State its role in the system",
    "   - List and explain key classes/functions",
    "   - Mention language and notable patterns",
    "4. **Cross-File Relationships**: Explain how files/modules interact (e.g., \"walker.py is used by generate_ast_docs.py to traverse the AST\").",
    "5. **Getting Started**: Include exact CLI commands to run the AST generator and README generator.",
    "6. **Output Examples**: Mention generated files (ast_summary.json, etc.)",
    "7. **Style**: Use clear Markdown headers, bullet points, and fenced code blocks for commands.",
    "8. **Tone**: Professional, precise, and educational — assume the reader is technical but new to this codebase.",
    "",
    "## Output Rules:",
    "- Return ONLY valid Markdown.",
    "- NO disclaimers, NO \"based on the summary\", NO extra commentary.",
    "- Begin immediately with `# Project Title`.",
    "",
    "--- BEGIN PROJECT SUMMARY ---"]

def instructionsAfter : List String :=
  ["--- END PROJECT SUMMARY ---"]

def templateLine (line : String) : Points := if line = "" then [] else templateMargin ++ line

def filledTemplate (digest : Points) : Points :=
  Text.joinLines
    ([] :: instructionsBefore.map templateLine ++ [templateMargin ++ digest]
      ++ instructionsAfter.map templateLine ++ [Points.ofString "    "])

def prompt (digest : Points) : Points := (Text.dedent (filledTemplate digest)).strip

end CodeAtlas.Readme
