import BundleHook.Text.Blank

/-!
# Text with tags

Text for the console may have tags in square brackets, which say how it is shown and are not shown
themselves. A tag begins with a small letter or one of a few signs; one with a slash in front closes
another. A backslash before a tag makes it plain text.
-/

namespace BundleHook

/-- A closing tag without its opening one. -/
inductive TagFault where
  | unopened (tag : Text) (position : Nat)
  /-- Closes the last tag, but none is open. -/
  | nothingOpen (position : Nat)
  deriving DecidableEq, Repr

def TagFault.message : TagFault → String
  | unopened tag position =>
    "closing tag '[" ++ String.ofList tag ++ "]' at position " ++ toString position ++
      " doesn't match any open tag"
  | nothingOpen position =>
    "closing tag '[/]' at position " ++ toString position ++ " has nothing to close"

namespace Tagged

/-- A part of a text with tags. -/
inductive Part where
  | plain (t : Text)
  | tag (body : Text) (position : Nat)
  deriving DecidableEq, Repr

def opensTag (c : Char) : Bool := ('a' ≤ c && c ≤ 'z') || c = '#' || c = '/' || c = '@'

def tagBody? : Text → Option Text
  | '[' :: c :: rest =>
    let more := rest.takeWhile fun d => d ≠ '[' && d ≠ ']'
    if opensTag c && (rest.drop more.length).head? = some ']' then some (c :: more) else none
  | _ => none

/-- The parts of a text from the offset `position`; the next `skip` characters belong to the part
before. Of the backslashes before a tag every two stand for one. -/
def partsFrom : (position skip : Nat) → Text → List Part
  | _, _, [] => []
  | position, skip + 1, _ :: rest => partsFrom (position + 1) skip rest
  | position, 0, c :: rest =>
    let slashes := ((c :: rest).takeWhile (· = '\\')).length
    match tagBody? ((c :: rest).drop slashes) with
    | some body =>
      let tag : Part :=
        if slashes % 2 = 0 then .tag body (position + slashes) else .plain ('[' :: body ++ [']'])
      .plain (List.replicate (slashes / 2) '\\') :: tag ::
        partsFrom (position + 1) (slashes + body.length + 1) rest
    | none =>
      if c = '\\' && rest.head? = some '[' then partsFrom (position + 1) 0 rest
      else .plain [c] :: partsFrom (position + 1) 0 rest

def parts (t : Text) : List Part := partsFrom 0 0 t

/-- The name of a tag, without its value. -/
def tagName (body : Text) : Text := body.takeWhile (· ≠ '=')

/-- A name as it is compared with others. -/
def comparedName (name : Text) : Text := (Text.trim name).map Char.toLower

def close? (name : Text) : List Text → Option (List Text)
  | [] => none
  | last :: others => if last = name then some others else (close? name others).map (last :: ·)

/-- What is shown of some parts; `opened` are the tags that are open, the last one first. -/
def shownParts (opened : List Text) : List Part → Except TagFault Text
  | [] => .ok []
  | .plain t :: others => do return t ++ (← shownParts opened others)
  | .tag body position :: others =>
    match tagName body with
    | '/' :: name =>
      if (Text.trim name).isEmpty then
        match opened with
        | _ :: opened => shownParts opened others
        | [] => .error (.nothingOpen position)
      else
        match close? (comparedName name) opened with
        | some opened => shownParts opened others
        | none => .error (.unopened body position)
    | name => shownParts (comparedName name :: opened) others

def isControl (c : Char) : Bool := c = '\x07' || c = '\x08' || c = '\x0b' || c = '\x0c' || c = '\r'

def shown (t : Text) : Except TagFault Text := do
  return (← shownParts [] (parts t)).filter fun c => !isControl c

/-- Without a bracket the parts of a text are the text. -/
theorem tagBody?_eq_none (t : Text) (h : '[' ∉ t) : tagBody? t = none := by
  cases t with
  | nil => rfl
  | cons c rest =>
    have hc : c ≠ '[' := fun he => h (he ▸ List.mem_cons_self)
    simp [tagBody?, hc]

end Tagged

end BundleHook
