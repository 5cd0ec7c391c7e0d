import Scc.Lib.Fuel
import Scc.Make.Replace

/-!
# Expansion of macros

`expandstring()` copies a line. The value of a macro is expanded on an input of its own and pushed, so what is left
of the line begins with it and it is read again.
-/

namespace Scc.Make.Expand

set_option autoImplicit false

open Scc.Lib.Fuel

def ch (c : Char) : UInt8 := c.toUInt8

/-- `FILENAME_MAX` -/
def MAXTOKEN : Nat := 256

def MAXREPL : Nat := 30

structure Target where
  target : Option Bytes
  req : Option Bytes
  stamp : Int
  deps : List Bytes

/-- What is outside of the parser: the macros and the times of the files. -/
structure Env where
  getmacro : Bytes → Bytes
  stamp : Bytes → Int

inductive Stop
  | error (message : String)
  /-- The location of a line is needed when no input is left. -/
  | fault
deriving DecidableEq

/-- The rest of the stack of inputs. A char is signed, and byte 255 is the end as well, although it is consumed. -/
def nextc : Bytes → Option UInt8 × Bytes
  | [] => (none, [])
  | c :: text => if c = 255 then (none, text) else (some c, text)

def back : Option UInt8 → Bytes → Bytes
  | none, text => text
  | some c, text => c :: text

def validchar (c : UInt8) : Bool :=
  c = ch '.' || c = ch '/' || c = ch '_' || c = ch '-' || (ch '0' ≤ c && c ≤ ch '9') ||
    (ch 'A' ≤ c && c ≤ ch 'Z') || (ch 'a' ≤ c && c ≤ ch 'z')

def internal (c : UInt8) : Bool := c = ch '@' || c = ch '?' || c = ch '*' || c = ch '<'

/-- The part before the last dot, or the whole name. -/
def stem (name : Bytes) : Bytes :=
  if ch '.' ∈ name then (name.reverse.dropWhile fun c => c ≠ ch '.').tail.reverse else name

/-- What `expandsimple()` pushes for `@`, `<`, `*` and `?`. -/
def automatic (env : Env) (c : UInt8) : Option Target → Bytes
  | none => []
  | some tp =>
    if c = ch '@' then tp.target.getD []
    else if c = ch '<' then tp.req.getD []
    else if c = ch '*' then (tp.target.map stem).getD []
    else
      -- The name that is pushed last is read first.
      let newer := (tp.req.toList ++ tp.deps).filter fun name => env.stamp name > tp.stamp
      newer.reverse.flatMap fun name => name ++ [ch ' ']

/-- The calls of `expandstring()` that are made on the way. -/
abbrev Calls := Bytes → Option Target → Result Stop Bytes

def expandmacro (calls : Calls) (env : Env) (name : Bytes) : Result Stop Bytes := calls (env.getmacro name) none

def expandsimple (calls : Calls) (env : Env) (tp : Option Target) (text : Bytes) : Result Stop Bytes :=
  match nextc text with
  | (some c, rest) =>
    if internal c then .ok (automatic env c tp ++ rest)
    else ( expandmacro calls env [c]).andThen fun s => .ok (s ++ rest)
  | (none, rest) =>
    -- The inputs are popped at the end and getloc() finds none.
    if text = [] then .error .fault
    else ( expandmacro calls env [255]).andThen fun s => .ok (s ++ rest)

inductive State
  | STBEGIN (name : Bytes)
  | STINTERNAL (s : Bytes)
  | STREPLACE (s repl : Bytes)
  | STTO (s repl to_ : Bytes)

/-- The loop of `expansion()`. -/
def scan (calls : Calls) (env : Env) (tp : Option Target) (delim : UInt8) : State → Bytes → Result Stop Bytes
  | _, [] => .error (.error "found eof while parsing expansion")
  | st, c :: text =>
    if c = 255 then .error (.error "found eof while parsing expansion")
    else
      match st with
      | .STBEGIN name =>
        if c = ch ':' then
          ( expandmacro calls env name).andThen fun s => scan calls env tp delim (.STREPLACE s []) text
        else if c = delim then ( expandmacro calls env name).andThen fun s => .ok (s ++ text)
        else if name.length = MAXTOKEN - 1 then .error (.error "expansion text too long")
        else if name = [] ∧ internal c then
          (calls [ch '$', c] tp).andThen fun s => scan calls env tp delim (.STINTERNAL s) text
        else if !validchar c then .error (.error "invalid macro name in expansion")
        else scan calls env tp delim (.STBEGIN (name ++ [c])) text
      | .STINTERNAL s =>
        if c = delim then .ok (s ++ text)
        else if c ≠ ch ':' then .error (.error "invalid internal macro in expansion")
        else scan calls env tp delim (.STREPLACE s []) text
      | .STREPLACE s repl =>
        if c = ch '=' then scan calls env tp delim (.STTO s repl []) text
        else if c = delim then .error (.error "invalid replacement pattern in expansion")
        else if repl.length = MAXREPL - 1 then .error (.error "macro replacement too big")
        else scan calls env tp delim (.STREPLACE s (repl ++ [c])) text
      | .STTO s repl to_ =>
        if c = delim then (calls repl tp).andThen fun erepl => .ok (replace s erepl to_ ++ text)
        else if to_.length = MAXREPL - 1 then .error (.error "macro substiturion too big")
        else scan calls env tp delim (.STTO s repl (to_ ++ [c])) text

/-- What is left of the inputs after `expansion()`. -/
def expansion (calls : Calls) (env : Env) (tp : Option Target) (text : Bytes) : Result Stop Bytes :=
  match nextc text with
  | (c, rest) =>
    if c = some (ch '(') then scan calls env tp (ch ')') (.STBEGIN []) rest
    else if c = some (ch '{') then scan calls env tp (ch '}') (.STBEGIN []) rest
    else expandsimple calls env tp (back c rest)

/-- The loop of `expandstring()`, with what it has copied. -/
def loop (env : Env) : Nat → Option Target → Bytes → Bytes → Result Stop Bytes
  | 0, _, _, _ => none
  | fuel + 1, tp, text, s =>
    match nextc text with
    | (none, _) => .ok s
    | (some c, text) =>
      if c ≠ ch '$' then loop env fuel tp text (s ++ [c])
      else
        match nextc text with
        | (c, text) =>
          if c = some (ch '$') then loop env fuel tp text (s ++ [ch '$', ch '$'])
          else
            (expansion (fun line tp => loop env fuel tp line []) env tp (back c text)).andThen fun text =>
              loop env fuel tp text s

def expandstring (env : Env) (fuel : Nat) (line : Bytes) (tp : Option Target) : Result Stop Bytes :=
  loop env fuel tp line []

/-- Every dollar is doubled, and the end is not read too early. -/
inductive Closed : Bytes → Prop
  | nil : Closed []
  | lit {c : UInt8} {text : Bytes} (plain : c ≠ ch '$') (read : c ≠ 255) (rest : Closed text) : Closed (c :: text)
  | dollars {text : Bytes} (rest : Closed text) : Closed (ch '$' :: ch '$' :: text)

theorem Closed.append {front text : Bytes} (closed : Closed front) (rest : Closed text) : Closed (front ++ text) := by
  induction closed with
  | nil => exact rest
  | lit plain read _ ih => exact .lit plain read ih
  | dollars _ ih => exact .dollars ih

theorem Closed.of_plain {text : Bytes} (plain : ch '$' ∉ text) (read : 255 ∉ text) : Closed text := by
  induction text with
  | nil => exact .nil
  | cons c text ih =>
    rw [List.mem_cons, not_or] at plain read
    exact .lit (Ne.symm plain.1) (Ne.symm read.1) (ih plain.2 read.2)

theorem Closed.read {text : Bytes} (closed : Closed text) : 255 ∉ text := by
  induction closed with
  | nil => exact List.not_mem_nil
  | lit plain read _ ih =>
    rw [List.mem_cons, not_or]
    exact ⟨Ne.symm read, ih⟩
  | dollars _ ih =>
    rw [List.mem_cons, List.mem_cons, not_or, not_or]
    exact ⟨by decide, by decide, ih⟩

variable {env : Env} {tp : Option Target}

def calls (env : Env) (fuel : Nat) : Calls := fun line tp => loop env fuel tp line []

theorem nextc_cons {c : UInt8} (read : c ≠ 255) (text : Bytes) : nextc (c :: text) = (some c, text) := if_neg read

theorem loop_lit (fuel : Nat) {c : UInt8} (plain : c ≠ ch '$') (read : c ≠ 255) (text s : Bytes) :
    loop env (fuel + 1) tp (c :: text) s = loop env fuel tp text (s ++ [c]) := by
  rw [loop, nextc_cons read]
  exact if_pos plain

theorem loop_dollars (fuel : Nat) (text s : Bytes) :
    loop env (fuel + 1) tp (ch '$' :: ch '$' :: text) s = loop env fuel tp text (s ++ [ch '$', ch '$']) := by
  rw [loop, nextc_cons (by decide)]
  dsimp only
  rw [if_neg (not_not.mpr rfl), nextc_cons (by decide)]
  exact if_pos rfl

theorem loop_reference (fuel : Nat) {text : Bytes} (other : text.head? ≠ some (ch '$'))
    (read : text.head? ≠ some 255) (s : Bytes) : loop env (fuel + 1) tp (ch '$' :: text) s =
      (expansion (calls env fuel) env tp text).andThen fun text => loop env fuel tp text s := by
  rw [loop, nextc_cons (by decide)]
  dsimp only
  rw [if_neg (not_not.mpr rfl)]
  cases text with
  | nil => rfl
  | cons c text =>
    have c_read : c ≠ 255 := fun same => read (by rw [same]; rfl)
    have c_other : c ≠ ch '$' := fun same => other (by rw [same]; rfl)
    rw [nextc_cons c_read]
    exact if_neg fun same => c_other (Option.some.inj same)

def Runs (env : Env) (tp : Option Target) (text s : Bytes) (result : Result Stop Bytes) : Prop :=
  Settles (fun fuel => loop env fuel tp text s) result

namespace Runs

variable {text s : Bytes} {result : Result Stop Bytes}

theorem nil : Runs env tp [] s (.ok s) := Settles.step (fun _ => rfl) (Settles.const _)

theorem eof : Runs env tp (255 :: text) s (.ok s) := Settles.step (fun _ => rfl) (Settles.const _)

theorem lit {c : UInt8} (plain : c ≠ ch '$') (read : c ≠ 255) (rest : Runs env tp text (s ++ [c]) result) :
    Runs env tp (c :: text) s result :=
  Settles.step (fun fuel => loop_lit fuel plain read text s) rest

theorem dollars (rest : Runs env tp text (s ++ [ch '$', ch '$']) result) :
    Runs env tp (ch '$' :: ch '$' :: text) s result :=
  Settles.step (fun fuel => loop_dollars fuel text s) rest

theorem closed {front : Bytes} (closed : Closed front) (rest : Runs env tp text (s ++ front) result) :
    Runs env tp (front ++ text) s result := by
  induction closed generalizing s with
  | nil =>
    rw [List.append_nil] at rest
    exact rest
  | lit plain read _ ih =>
    apply lit plain read
    apply ih
    rw [List.append_assoc]
    exact rest
  | dollars _ ih =>
    apply dollars
    apply ih
    rw [List.append_assoc]
    exact rest

end Runs

theorem loop_closed (fuel : Nat) {text s out : Bytes} (runs : loop env fuel tp text s = .ok out) (closed : Closed s) :
    Closed out := by
  induction fuel generalizing text s with
  | zero => cases runs
  | succ fuel ih =>
    rw [loop] at runs
    cases text with
    | nil =>
      cases runs
      exact closed
    | cons c text =>
      by_cases eof : c = 255
      · rw [eof] at runs
        cases runs
        exact closed
      · rw [nextc_cons eof] at runs
        dsimp only at runs
        split_ifs at runs with plain dollar
        · exact ih runs (closed.append (.lit plain eof .nil))
        · exact ih runs (closed.append (.dollars .nil))
        · generalize expansion _ env tp _ = expanded at runs
          cases expanded with
          | none => cases runs
          | some expanded =>
            cases expanded with
            | error stop => cases runs
            | ok text => exact ih runs closed

theorem expandstring_closed {fuel : Nat} {line out : Bytes} (gives : expandstring env fuel line tp = .ok out) :
    Closed out :=
  loop_closed fuel gives .nil

theorem expandstring_again {out : Bytes} (closed : Closed out) :
    Settles (fun fuel => expandstring env fuel out tp) (.ok out) := by
  have run := @Runs.closed env tp [] [] (.ok out) out closed Runs.nil
  rw [List.append_nil] at run
  exact run

end Scc.Make.Expand
