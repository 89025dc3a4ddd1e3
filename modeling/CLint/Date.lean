namespace CLint

structure Date where
  year : Nat
  month : Nat
  day : Nat
  deriving DecidableEq, Repr

namespace Date

def isLeap (year : Nat) : Bool :=
  year % 4 = 0 && (year % 100 ≠ 0 || year % 400 = 0)

def daysIn (year month : Nat) : Nat :=
  if month = 2 then if isLeap year then 29 else 28
  else if month ∈ [4, 6, 9, 11] then 30
  else 31

def daysOf (year : Nat) : Nat :=
  if isLeap year then 366 else 365

theorem daysIn_pos (year month : Nat) : 0 < daysIn year month := by
  unfold daysIn
  split <;> split <;> decide

theorem daysOf_pos (year : Nat) : 0 < daysOf year := by
  unfold daysOf
  split <;> decide

-- The calendar has no year zero.
def isReal (d : Date) : Bool :=
  d.year ≠ 0 && d.day ≤ daysIn d.year d.month

-- The date that is some days after the first day of a month.
def afterMonth (year month days : Nat) : Date :=
  if days < daysIn year month then ⟨year, month, days + 1⟩
  else afterMonth year (month + 1) (days - daysIn year month)
termination_by days
decreasing_by
  have := daysIn_pos year month
  omega

-- The date that is some days after the first day of a year.
def afterYear (year days : Nat) : Date :=
  if days < daysOf year then afterMonth year 1 days
  else afterYear (year + 1) (days - daysOf year)
termination_by days
decreasing_by
  have := daysOf_pos year
  omega

def digits (width n : Nat) : String :=
  let ds := (toString n).toList
  String.ofList (List.replicate (width - ds.length) '0' ++ ds)

def text (d : Date) : String :=
  s!"{digits 4 d.year}-{digits 2 d.month}-{digits 2 d.day}"

-- The point in time that is some seconds after the beginning of 1970, in universal time.
def momentText (seconds : Nat) : String :=
  let date := afterYear 1970 (seconds / 86400)
  let hour := digits 2 (seconds / 3600 % 24)
  let minute := digits 2 (seconds / 60 % 60)
  s!"{date.text}T{hour}:{minute}:{digits 2 (seconds % 60)}Z"

end Date
end CLint
