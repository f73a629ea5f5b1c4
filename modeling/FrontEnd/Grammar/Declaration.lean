import FrontEnd.Grammar.Expression
import FrontEnd.Grammar.Type

/-!
# Declarations and files

A declaration that begins with a name is a signature if a colon follows the name, and a
function if anything follows that can be a parameter or begin a body.  The words `type`
and `seal` begin blocks of signatures.  A file is declarations with separators between
them, which are not needed where the grammar tells them apart.
-/

namespace FrontEnd
namespace Parse

/-- The name of a declaration: an identifier, or an operator in parentheses. -/
def declName : Parse Name := do
  if (← kind) = .parenLeft then parenthesized operator else name

def signatureOf (n : Name) : Parse Signature := do
  let _ ← expect .colon
  return ⟨n, ← type, n.loc⟩

def functionOf (n : Name) : Parse Function := do
  let params ← many pattern?
  skip .assign
  return ⟨n, none, params, some (← expr), n.loc⟩

/-- A member of a block, or nothing once the block is closed. -/
def member? : Parse (Option Signature) := do
  skipSeparators
  if (← kind) = .braceRight then
    let _ ← advance
    return none
  else return some (← signatureOf (← declName))

/-- A block from its name on, where the word that begins it stands at `loc`. -/
def blockAt (loc : Location) : Parse Block := do
  let n ← name
  let params ← many name?
  let _ ← expect .braceLeft
  return ⟨n, params, ← many member?, loc⟩

def block : Parse Block := do
  let loc ← here
  let _ ← advance
  blockAt loc

def declOf (n : Name) : Parse Decl := do
  match ← kind with
  | .colon => return .signature (← signatureOf n)
  | .ident | .assign | .parenLeft | .integer | .float => return .function (← functionOf n)
  | _ => fail (.declarationTail n.value)

def decl : Parse Decl := do
  match ← kind with
  | .typeWord => return .enumeration (← block)
  | .sealWord => return .sealed (← block)
  | .ident | .parenLeft => declOf (← declName)
  | _ => fail .declaration

/-- The next declaration of a file, or nothing at its end. -/
def decl? : Parse (Option Decl) := do
  skipSeparators
  if (← kind) = .eof then return none else return some (← decl)

def file : Parse File := do
  let loc ← here
  let decls ← many decl?
  return ⟨none, decls, ← here, loc⟩

end Parse

namespace File

/-- The file that a sequence of reads delivers, or its first syntax error, with all that
is reported until the parser is done. -/
def ofReads (path : String) (reads : List Read) : Except SyntaxError File × List Diagnostic :=
  match Parse.file.run (.ofReads path reads) with
  | .ok f p => (.ok f, p.log.toList)
  | .error e p => (.error e, p.log.toList)

end File
end FrontEnd
