import BacktrackRegex.MatcherSource.ClassTest
import BacktrackRegex.Program.Basic
import BacktrackRegex.Text.Quoted
import BacktrackRegex.Text.Upper

/-!
# Source text of a matcher

A program is written out as one function: a loop over a state, which is the current node, with one
arm for each node. An arm tells whether its node matches, and moves the position and the state.
Where no arm matches, the newest choice is taken up again. In front of the function stands the entry
that registers it together with what a search needs to know about the pattern.
-/

namespace BacktrackRegex.MatcherSource

/-- Lines one level deeper. Empty lines stay empty. -/
def indent (lines : List String) : List String :=
  lines.map fun line => if line.isEmpty then line else "    " ++ line

/-- Lines between braces, the opening one behind a head. -/
def block (head : String) (body : List String) (tail : String) : List String :=
  (head ++ " \x7b") :: indent body ++ ["\x7d" ++ tail]

/-- Lines between braces, each on a line of its own. -/
def looseBlock (body : List String) : List String :=
  "\x7b" :: indent body ++ ["\x7d"]

/-- The lines that go on at another node. -/
def goTo (next : Nat) : List String :=
  ["state = " ++ next.repr ++ ";", "true"]

/-- The line that records the position under a key. -/
def pushKey (kind : String) (index : Nat) : String :=
  "ctx.push(ContextKey::" ++ kind ++ "(" ++ index.repr ++ "), pos);"

/-- The line that keeps a choice. -/
def keepChoice (node : Nat) : String :=
  "choices.push((" ++ node.repr ++ ", pos, ctx.top()));"

/-- The lines that consume a character that passes a guard. -/
def matchChar (guard : String) (next : Nat) : List String :=
  block "match ctx.text()[pos..].chars().next()"
    (block ("Some(c) if " ++ guard ++ " =>") ("pos += c.len_utf8();" :: goTo next) ""
      ++ ["_ => false,"]) ""

/-- The arm of a node. -/
def arm (id : Nat) (node : Node) : List String :=
  let enough := id.repr ++ " if bytes.len() - pos >= " ++ node.minLength.repr
  match node.op with
  | .success => block (id.repr ++ " =>") [pushKey "capture" 0, "on_match(ctx);", "return true;"] ""
  | .literal s next =>
    [enough, "    && bytes[pos..].starts_with(" ++ Text.quoted s ++ ".as_bytes()) =>"]
      ++ looseBlock (("pos += " ++ s.utf8ByteSize.repr ++ ";") :: goTo next)
  | .charClass cls next =>
    let guard := "\x7b let u = c as u32; " ++ classTest cls ++ " \x7d"
    block (enough ++ " =>") (matchChar guard next) ""
  | .anyChar next => block (enough ++ " =>") (matchChar "c != '\\n'" next) ""
  | .branch first second => block (enough ++ " =>") (keepChoice second :: goTo first) ""
  | .loop index body exit =>
    block (enough ++ " =>")
      (block ("if ctx.find(ContextKey::repeat(" ++ index.repr ++ ")) == Some(pos)")
          ["state = " ++ exit.repr ++ ";"] " else \x7b"
        ++ indent [keepChoice exit, pushKey "repeat" index, "state = " ++ body.repr ++ ";"]
        ++ ["\x7d", "true"]) ""
  | .mark group next => block (id.repr ++ " =>") (pushKey "capture" group :: goTo next) ""
  | .backReference group next =>
    block (id.repr ++ " => match ctx.captured(" ++ group.repr ++ ")")
      (["Some((start, end))", "    if bytes[pos..].starts_with(&bytes[start..end]) =>"]
        ++ looseBlock ("pos += end - start;" :: goTo next) ++ ["_ => false,"]) ","
  | .textStart next => block (id.repr ++ " if pos == 0 =>") (goTo next) ""
  | .textEnd next => block (id.repr ++ " if pos == bytes.len() =>") (goTo next) ""

/-- The registry entry of a pattern whose matcher has the given name. -/
def registryEntry (name pattern : String) (p : Program) : List String :=
  "#[distributed_slice(COMPILED_REGEXPS)]" ::
    block ("static " ++ Text.upper name ++ ": CompiledRegexp = CompiledRegexp")
      ["pattern: " ++ Text.quoted pattern ++ ",", "anchored: " ++ toString p.anchored ++ ",",
        "min_req: " ++ p.minLength.repr ++ ",", "num_captures: " ++ p.groups.repr ++ ",",
        "entry: " ++ p.root.repr ++ ",", "exec: " ++ name ++ ","] ";"

/-- The lines that take up the newest choice. -/
def takeChoice : List String :=
  block "if !matched"
    (block "let Some((next, p, top)) = choices.pop() else" ["return false;"] ";"
      ++ ["ctx.backtrack(top);", "state = next;", "pos = p;"]) ""

/-- The function of a matcher. -/
def matcherFunction (name : String) (p : Program) : List String :=
  let arms := (p.nodes.toList.zipIdx.map fun (node, id) => arm id node).flatten
  ["#[allow(unused_parens)]", "fn " ++ name ++ "("]
    ++ indent ["ctx: &mut MatchContext<'_, '_>,", "entry: u32,", "pos: usize,",
      "on_match: &mut dyn FnMut(&MatchContext<'_, '_>),"]
    ++ block ") -> bool"
      (["let bytes = ctx.text().as_bytes();",
          "let mut choices: Vec<(u32, usize, usize)> = Vec::new();",
          "let mut state = entry;", "let mut pos = pos;", ""]
        ++ block "loop"
          (block "let matched = match state" (arms ++ ["_ => false,"]) ";" ++ "" :: takeChoice)
          "") ""

/-- The lines of the matcher of a pattern: its registry entry and its function. -/
def matcher (name pattern : String) (p : Program) : List String :=
  registryEntry name pattern p ++ [""] ++ matcherFunction name p

end BacktrackRegex.MatcherSource
