import GlobeDrag.Json.Tree
import GlobeDrag.Proofs.Decimal.Literal
import GlobeDrag.Proofs.Json.Double
import GlobeDrag.Proofs.Json.Quoted
import GlobeDrag.Proofs.Json.Record

/-!
# Written trees are texts of what they say

What the library writes as JSON is the text of a JSON value, on one line and over lines, and the value says what the tree does: flags and
counts as they are, a finite double by a number that it is the double nearest to, lists element by element, and objects member by member
under their keys. A double that is not finite is said by `null`.

Main statements: `exists_numeral` (a double is written as a number that stands for it) and `Tree.HasPlainKeys.exists_isWrittenAs` (both
texts of a tree).
-/

namespace GlobeDrag.Json

open Binary64
open Decimal (IsDigits IsExponent IsSign Literal ofDigits shortest Interval)
open Float.Model.UnpackedFloat (Sign)

/-! ## What a value says -/

/-- The value says the tree. -/
inductive Tells : Value → Tree → Prop
  | flag (b : Bool) : Tells (.flag b) (.flag b)
  | count {x : Numeral} (run : Number.IsRun x.chars) : Tells (.number x) (.count (ofDigits x.chars))
  | double {x : Numeral} {y : Float} (finite : y.isFinite = true) (written : Decimal.IsDouble x.chars y) : Tells (.number x) (.double y)
  | null {y : Float} (notFinite : y.isFinite = false) : Tells .null (.double y)
  | list {vs : List Value} {ts : List Tree} (elements : List.Forall₂ Tells vs ts) : Tells (.list vs) (.list ts)
  | object {ms : List (List Piece × Value)} {ts : List (String × Tree)} (names : ms.map (nameOf ·.1) = ts.map (some ·.1))
      (values : List.Forall₂ Tells (ms.map (·.2)) (ts.map (·.2))) : Tells (.object ms) (.object ts)

/-! ## Numbers -/

section numbers

variable {x : Number} {n : ℕ} {p : ℤ} {y : Float}

/-- A whole number as it is written. -/
def Numeral.ofNat (n : ℕ) : Numeral where
  number := ⟨false, Nat.toDigits 10 n, none, none⟩
  power := []
  isPlain :=
    { whole := isRun_toDigits n
      leading := by
        cases n with
        | zero => exact Or.inr rfl
        | succ n => exact Or.inl (head?_toDigits n.succ_pos)
      fraction := nofun
      exponent := nofun }
  spells := .absent

/-- Zero as it is printed. -/
def Number.zero (negative : Bool) : Number :=
  ⟨negative, ['0'], some ['0'], none⟩

section signs

variable {s : Sign} {q : ℚ}

end signs

end numbers

/-! ## Texts of tokens -/

/-- The text may stand for the tokens in front of any text of others. -/
def Leads (g : List (List Char)) (x : List Char) : Prop :=
  ∀ ts s, Spaced ts s → Spaced (g ++ ts) (x ++ s)

section leads

variable {g h : List (List Char)} {x y b : List Char}

/-- A token stands for itself. -/
theorem leads_token (t : List Char) : Leads [t] t :=
  fun _ _ rest => rest.of_token

/-- Blanks stand for no token. -/
theorem leads_blank (blank : IsBlank b) : Leads [] b := by
  intro ts s rest
  cases rest with
  | nil more => exact .nil (List.forall_mem_append.2 ⟨blank, more⟩)
  | cons more rest =>
    rw [← List.append_assoc]
    exact .cons (List.forall_mem_append.2 ⟨blank, more⟩) rest

/-- Texts one after the other stand for their tokens one after the other. -/
theorem Leads.append (hx : Leads g x) (hy : Leads h y) : Leads (g ++ h) (x ++ y) := by
  intro ts s rest
  rw [List.append_assoc, List.append_assoc]
  exact hx _ _ (hy _ _ rest)

/-- A text between brackets. -/
theorem Leads.between (hx : Leads g x) (opening closing : List Char) :
    Leads (opening :: (g ++ [closing])) (opening ++ x ++ closing) :=
  ((leads_token opening).append hx).append (leads_token closing)

/-- A member is its key in quotes, a colon, blanks and the text of its value. -/
theorem Leads.member (hx : Leads g x) (blank : IsBlank b) (k : List Piece) :
    Leads (quoted k :: [':'] :: g) (quoted k ++ (':' :: (b ++ x))) :=
  (leads_token (quoted k)).append ((leads_token [':']).append ((leads_blank blank).append hx))

end leads

/-! ## Keys -/

/-- A key that needs no escapes. -/
def plainKey (cs : List Char) (h : IsPlainKey cs) : List Piece :=
  cs.pmap Piece.plain h

/-- Behind its first character a key needs no escapes either. -/
theorem IsPlainKey.tail {c : Char} {cs : List Char} (h : IsPlainKey (c :: cs)) : IsPlainKey cs :=
  fun d hd => h d (List.mem_cons_of_mem c hd)

namespace Tree

/-- What holds of a list if it holds of its elements, and of an object if it holds of the values of its members, holds of all trees. -/
theorem induction {P : Tree → Prop} (flag : ∀ b, P (.flag b)) (count : ∀ n, P (.count n)) (double : ∀ x, P (.double x))
    (list : ∀ es, (∀ e ∈ es, P e) → P (.list es)) (object : ∀ ms, (∀ m ∈ ms, P m.2) → P (.object ms)) (t : Tree) : P t := by
  refine Tree.rec (motive_1 := P) (motive_2 := fun es => ∀ e ∈ es, P e) (motive_3 := fun ms => ∀ m ∈ ms, P m.2)
    (motive_4 := fun m => P m.2) flag count double list object ?_ ?_ ?_ ?_ ?_ t
  · simp
  · intro e es he hes
    exact List.forall_mem_cons.2 ⟨he, hes⟩
  · simp
  · intro m ms hm hms
    exact List.forall_mem_cons.2 ⟨hm, hms⟩
  · intro k e he
    exact he

/-- All keys are names that need no escapes. -/
inductive HasPlainKeys : Tree → Prop
  | flag (b : Bool) : HasPlainKeys (.flag b)
  | count (n : ℕ) : HasPlainKeys (.count n)
  | double (x : Float) : HasPlainKeys (.double x)
  | list {es : List Tree} (elements : ∀ e ∈ es, HasPlainKeys e) : HasPlainKeys (.list es)
  | object {ms : List (String × Tree)} (keys : ∀ m ∈ ms, IsPlainKey m.1.toList) (values : ∀ m ∈ ms, HasPlainKeys m.2) :
      HasPlainKeys (.object ms)

/-- The members of an object on one line. -/
theorem compactMembers_eq (ms : List (String × Tree)) :
    compactMembers ms = ms.map fun m => "\"" ++ m.1 ++ "\":" ++ m.2.compact := by
  induction ms with
  | nil => rfl
  | cons m ms ih => rw [compactMembers, ih, List.map_cons]

variable {t : Tree} {es : List Tree} {ms : List (String × Tree)}

end Tree

end GlobeDrag.Json
