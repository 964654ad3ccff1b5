import BundleHook.Text.Blank

/-!
# Dates

A point in time to the second, as a property list writes it: smaller units may be left out from the
end, but a date without a day is incomplete.
-/

namespace BundleHook.PropertyList

/-- A point in time to the second. -/
structure Date where
  year : Nat
  month : Nat
  day : Nat
  hour : Nat
  minute : Nat
  second : Nat
  deriving DecidableEq, Repr

/-- What can be wrong with a date. -/
inductive DateFlaw where
  | unreadable
  /-- It has no day. -/
  | incomplete
  | year (value : Nat)
  | month
  | day
  | hour
  | minute
  | second
  deriving DecidableEq, Repr

namespace Date

def isLeap (year : Nat) : Bool := year % 4 == 0 && (year % 100 != 0 || year % 400 == 0)

def daysIn (year month : Nat) : Nat :=
  if month = 2 then (if isLeap year then 29 else 28)
  else if [4, 6, 9, 11].contains month then 30
  else 31

/-- The date of six numbers, checked from the greatest unit to the smallest. -/
def check (date : Date) : Except DateFlaw Date :=
  if date.year = 0 || 9999 < date.year then .error (.year date.year)
  else if date.month = 0 || 12 < date.month then .error .month
  else if date.day = 0 || daysIn date.year date.month < date.day then .error .day
  else if 23 < date.hour then .error .hour
  else if 59 < date.minute then .error .minute
  else if 59 < date.second then .error .second
  else .ok date

/-- The number of an exact count of digits at the head of a text, and the text behind it. -/
def digits? (width : Nat) (t : Text) : Option (Nat × Text) :=
  let digits := t.take width
  if digits.length = width && digits.all Char.isDigit then
    some (digits.foldl (fun n c => 10 * n + (c.toNat - '0'.toNat)) 0, t.drop width)
  else none

/-- The two-digit units of a text, each behind its mark, and the text behind the last of them. -/
def units : List Char → Text → List Nat × Text
  | mark :: marks, c :: rest =>
    if c = mark then
      match digits? 2 rest with
      | some (n, rest) =>
        let (others, rest) := units marks rest
        (n :: others, rest)
      | none => ([], c :: rest)
    else ([], c :: rest)
  | _, t => ([], t)

def read (t : Text) : Except DateFlaw Date :=
  match digits? 4 t with
  | none => .error .unreadable
  | some (year, rest) =>
    match units ['-', '-', 'T', ':', ':'] rest with
    | (found, 'Z' :: _) =>
      match found with
      | month :: day :: time =>
        check ⟨year, month, day, time.getD 0 0, time.getD 1 0, time.getD 2 0⟩
      | _ => .error .incomplete
    | _ => .error .unreadable

def padded (width n : Nat) : Text :=
  let digits := Nat.toDigits 10 n
  List.replicate (width - digits.length) '0' ++ digits

def write (d : Date) : Text :=
  padded 4 d.year ++ '-' :: padded 2 d.month ++ '-' :: padded 2 d.day ++ 'T' :: padded 2 d.hour ++
    ':' :: padded 2 d.minute ++ ':' :: padded 2 d.second ++ ['Z']

end Date

end BundleHook.PropertyList
