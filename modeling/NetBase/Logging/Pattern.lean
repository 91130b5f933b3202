import Mathlib.Tactic.Common

/-!
# Patterns of log lines

`logPatternParse` of `src/base/string_parsers.h`: literal text, and specifiers of a `%`, a key and
a format in braces. The inner loop looks for the end of one specifier; the outer one goes on behind
it, or, where a brace stays open, right behind the `%`.
-/

namespace NetBase.Logging

/-- An entry: the text or key, the format, and whether it is a specifier. -/
structure PatternEntry where
  str : String
  fmt : String
  specifier : Bool
  deriving DecidableEq, Repr

namespace Pattern

/-- `substr(pos, count)` -/
def substr (s : List Char) (pos count : Nat) : List Char := (s.drop pos).take count

/-- Where the inner loop stops: the index, whether a brace is open, the key and the format. -/
structure Scan where
  n : Nat
  fmtStatus : Bool
  str : List Char
  fmt : List Char
  deriving DecidableEq, Repr

/-- The inner loop, for the `%` at `i`. -/
def scan (s : List Char) (i n : Nat) (fmtStatus : Bool) (fmtBegin : Nat) (str fmt : List Char) :
    Scan :=
  if h : n < s.length then
    if !fmtStatus ∧ !s[n].isAlpha ∧ s[n] ≠ '\x7b' ∧ s[n] ≠ '\x7d' then
      ⟨n, fmtStatus, substr s (i + 1) (n - i - 1), fmt⟩
    else if !fmtStatus ∧ s[n] = '\x7b' then
      scan s i (n + 1) true n (substr s (i + 1) (n - i - 1)) fmt
    else if fmtStatus ∧ s[n] = '\x7d' then
      ⟨n + 1, false, str, substr s (fmtBegin + 1) (n - fmtBegin - 1)⟩
    else
      let str := if n + 1 = s.length ∧ str = [] then s.drop (i + 1) else str
      scan s i (n + 1) fmtStatus fmtBegin str fmt
  else ⟨n, fmtStatus, str, fmt⟩
termination_by s.length - n

theorem scan_ge (s : List Char) (i n : Nat) (fmtStatus : Bool) (fmtBegin : Nat)
    (str fmt : List Char) : n ≤ (scan s i n fmtStatus fmtBegin str fmt).n := by
  fun_induction scan s i n fmtStatus fmtBegin str fmt with
  | case1 => exact Nat.le_refl _
  | case2 n _ _ _ _ _ _ ih => omega
  | case3 => exact Nat.le_succ _
  | case4 n _ _ _ _ _ _ _ _ ih => omega
  | case5 => exact Nat.le_refl _

/-- A pending literal, as an entry. -/
def literal (nstr : List Char) : List PatternEntry :=
  if nstr = [] then [] else [⟨String.ofList nstr, "", false⟩]

/-- The outer loop. -/
def parse (s : List Char) (i : Nat) (nstr : List Char) (vec : List PatternEntry) :
    List PatternEntry :=
  if h : i < s.length then
    if s[i] ≠ '%' then parse s (i + 1) (nstr ++ [s[i]]) vec
    else if s[i + 1]? = some '%' then parse s (i + 1) (nstr ++ ['%']) vec
    else
      let r := scan s i (i + 1) false 0 [] []
      have _ := scan_ge s i (i + 1) false 0 [] []
      if r.fmtStatus then
        parse s (i + 1) nstr (vec ++ [⟨"<<pattern_error>>", String.ofList r.fmt, false⟩])
      else
        parse s r.n [] (vec ++ literal nstr ++
          [⟨String.ofList r.str, String.ofList r.fmt, true⟩])
  else vec ++ literal nstr
termination_by s.length - i

end Pattern

def logPatternParse (formatterPattern : String) : List PatternEntry :=
  Pattern.parse formatterPattern.toList 0 [] []

end NetBase.Logging
