import GoOutline.Format
import GoOutline.Program.Script

/-!
The programs that a formatter can call.
-/

namespace GoOutline.Program

open Text

/-- A program that gives its input back, and one that takes its input for a script. -/
def known : Programs := fun name input =>
  match name with
  | "cat" => .finished 0 (Utf8.encode input) []
  | "sh" =>
    let st := Script.execute input
    .finished st.status st.output st.errors
  | _ => .cannotStart ReadError.missing.message

end GoOutline.Program
