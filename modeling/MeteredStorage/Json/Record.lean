import MeteredStorage.Json.Scan

namespace MeteredStorage.Json

inductive Fault (ε : Type)
  | malformed
  | refused (reason : ε)

abbrev Reader (ε α : Type) := List Char → Except (Fault ε) (α × List Char)

variable {ε α : Type}

def lift (read : List Char → Option (α × List Char)) : Reader ε α := fun s =>
  match read s with
  | some r => .ok r
  | none => .error .malformed

def integerIn (lo hi : Int) : Reader ε Int := fun s => do
  let (n, rest) ← lift integer? (skipBlanks s)
  if lo ≤ n ∧ n < hi then .ok (n, rest) else .error .malformed

def nullable (read : Reader ε α) : Reader ε (Option α) := fun s =>
  match skipBlanks s with
  | 'n' :: s =>
    match ['u', 'l', 'l'].isPrefixOf? s with
    | some rest => .ok (none, rest)
    | none => .error .malformed
  | s => (read s).map fun (a, rest) => (some a, rest)

def unknownField (state : α) : Reader ε α := fun s =>
  match skipValue s with
  | some rest => .ok (state, rest)
  | none => .error .malformed

/--
The fields of an object whose brace has been read. `field` reads the value of a named field into
the state; `n` bounds the number of fields.
-/
def fieldsFrom (field : List Char → α → Reader ε α) : Nat → Bool → α → Reader ε α
  | 0, _, _, _ => .error .malformed
  | n + 1, first, state, s => do
    let afterComma ← match skipBlanks s, first with
      | '\x7d' :: s, _ => return (state, s)
      | ',' :: s, false => pure (skipBlanks s)
      | s, true => pure s
      | _, false => .error .malformed
    match afterComma with
    | '"' :: s =>
      let (name, s) ← lift string? s
      match skipBlanks s with
      | ':' :: s =>
        let (state, s) ← field name state s
        fieldsFrom field n false state s
      | _ => .error .malformed
    | _ => .error .malformed

def fields (field : List Char → α → Reader ε α) (start : α) : Reader ε α := fun s =>
  fieldsFrom field (s.length + 1) true start s

def pair {β : Type} (first : Reader ε α) (second : Reader ε β) : Reader ε (α × β) := fun s => do
  let (a, s) ← first s
  match skipBlanks s with
  | ',' :: s =>
    let (b, s) ← second s
    match skipBlanks s with
    | ']' :: s => .ok ((a, b), s)
    | _ => .error .malformed
  | _ => .error .malformed

def whole (read : Reader ε α) (text : List Char) : Except (Fault ε) α := do
  let (a, rest) ← read text
  if (skipBlanks rest).isEmpty then .ok a else .error .malformed

end MeteredStorage.Json
