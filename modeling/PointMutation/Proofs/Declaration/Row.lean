import PointMutation.Syntax.Grammar

/-!
# Reading a row

In a row outside of all indentations, tokens are read from left to right with blanks between them.
What a reader does there is told by the text that is left (`Cursor.facing`): it looks past the
blanks (`look_facing`), and a token is as long as its measure says (`token_facing`). At the end of
the text a line ends where that is expected, and no token is left otherwise.
-/

namespace PointMutation.Syntax

/-! ## Steps of a reader -/

section

variable {α β : Type} {c d : Cursor}

theorem bind_of_some {p : Parser α} {x : α} (h : p c = some (x, d)) (k : α → Parser β) :
    (p >>= k) c = k x d := by
  show (p c).bind (fun q => k q.1 q.2) = _
  rw [h]
  rfl

theorem bind_of_none {p : Parser α} (h : p c = none) (k : α → Parser β) :
    (p >>= k) c = none := by
  show (p c).bind (fun q => k q.1 q.2) = _
  rw [h]
  rfl

theorem get_bind (k : Cursor → Parser α) : (get >>= k) c = k c c := rfl

theorem set_bind (k : PUnit → Parser α) : (set d >>= k) c = k ⟨⟩ d := rfl

theorem orElse_of_some {p q : Parser α} {x : α × Cursor} (h : p c = some x) :
    (p <|> q) c = some x := by
  show (p c <|> q c) = some x
  rw [h]
  rfl

theorem orElse_of_none {p q : Parser α} (h : p c = none) : (p <|> q) c = q c := by
  show (p c <|> q c) = q c
  rw [h]
  rfl

theorem many_of_none {step : α → Parser α} {x : α} (h : step x c = none) :
    many step x c = some (x, c) := by
  rw [many, get_bind, repeated, orElse_of_none (bind_of_none h _)]
  rfl

theorem many_once {step : α → Parser α} {x y : α} (h : step x c = some (y, d))
    (h' : step y d = none) : many step x c = some (y, d) := by
  have hrest : ∀ n, repeated step n y d = some (y, d) := by
    intro n
    cases n with
    | zero => rfl
    | succ n =>
      rw [repeated, orElse_of_none (bind_of_none h' _)]
      rfl
  rw [many, get_bind, repeated]
  apply orElse_of_some
  rw [bind_of_some h, hrest]

theorem orNothing_of_none {f : Fragment} {p : Parser Fragment} (h : p c = none) :
    orNothing f p c = some (f, c) := by
  rw [orNothing, orElse_of_none (bind_of_none h _)]
  rfl

end

/-! ## Rows -/

/-- In front of a text, behind `n` characters and outside of all indentations. -/
def Cursor.facing (n : Nat) (t : Text) : Cursor := ⟨t, n, n + t.length, [], false⟩

@[simp]
theorem Cursor.facing_rest (n : Nat) (t : Text) : (Cursor.facing n t).rest = t := rfl

@[simp]
theorem Cursor.facing_place (n : Nat) (t : Text) : (Cursor.facing n t).place = n := rfl

theorem Cursor.ofText_eq_facing (t : Text) : Cursor.ofText t = .facing 0 t := by
  simp [Cursor.ofText, Cursor.facing]

theorem Cursor.advance_facing (n : Nat) (w t : Text) :
    (Cursor.facing n (w ++ t)).advance w.length = .facing (n + w.length) t := by
  simp [Cursor.facing, Cursor.advance, Nat.add_assoc]

/-- Whether a token begins with a character. -/
def isInk (c : Char) : Bool := !(isSeparator c || c == '#' || c == '\\')

/-- Nothing but spaces. -/
def Gap (g : Text) : Prop := ∀ c ∈ g, c = ' '

theorem gap_nil : Gap [] := by simp [Gap]

theorem gap_space : Gap [' '] := by simp [Gap]

theorem isSeparator_of_gap {g : Text} (hg : Gap g) : ∀ c ∈ g, isSeparator c = true := by
  intro c hc
  rw [hg c hc]
  decide

/-- Spaces in front of a token are all that is blank. -/
theorem blanks_gap (comments : Bool) {g : Text} (hg : Gap g) {d : Char} (hd : isInk d = true)
    (r : Text) (b : Blanks) :
    blanks comments (g ++ d :: r) .space b =
      some { b with width := b.width + g.length, rest := d :: r } := by
  induction g generalizing b with
  | nil =>
    have hne : ∀ c, isSeparator c = true → d ≠ c := by
      rintro c hc rfl
      simp [isInk, hc] at hd
    have hhash : d ≠ '#' := by
      rintro rfl
      exact absurd hd (by decide)
    have hslash : d ≠ '\\' := by
      rintro rfl
      exact absurd hd (by decide)
    rw [List.nil_append, blanks, if_neg (hne '\n' (by decide)), if_neg (hne ' ' (by decide)),
      if_neg (hne '\t' (by decide))]
    simp [hne '\r' (by decide), hne '\x0c' (by decide), hhash, hslash]
  | cons c g ih =>
    obtain rfl := hg c (by simp)
    rw [List.cons_append, blanks, if_neg (by decide), if_pos rfl,
      ih (fun c hc => hg c (List.mem_cons_of_mem _ hc))]
    simp [Nat.add_comm, Nat.add_left_comm]

theorem takeWhile_gap {g : Text} (hg : Gap g) {d : Char} (hd : isInk d = true) (r : Text) :
    (g ++ d :: r).takeWhile isSeparator = g := by
  have hsep : isSeparator d = false := by
    simp only [isInk] at hd
    grind
  rw [List.takeWhile_append_of_pos (isSeparator_of_gap hg), List.takeWhile_cons, hsep]
  simp

theorem skip_facing {g : Text} (hg : Gap g) {d : Char} (hd : isInk d = true) (n : Nat)
    (r : Text) : (Cursor.facing n (g ++ d :: r)).skip = .facing (n + g.length) (d :: r) := by
  rw [Cursor.skip, Cursor.facing_rest, takeWhile_gap hg hd, Cursor.advance_facing]

theorem extra_of_isInk {d : Char} (hd : isInk d = true) (r : Text) : extra? (d :: r) = none := by
  unfold extra?
  split <;> simp_all [isInk]

/-! ## What comes next -/

/-- What a text in front of which no layout stands begins with. -/
def found (e : Expect) (t : Text) : Layout :=
  match (if e.quote then opening t else none) with
  | some (q, n) => .quote q n
  | none => .text

theorem found_of_plain {e : Expect} (h : e.quote = false) (t : Text) : found e t = .text := by
  simp [found, h]

theorem found_of_opening {e : Expect} {t : Text} (h : opening t = none) : found e t = .text := by
  simp [found, h]

theorem found_cases (e : Expect) (t : Text) :
    found e t = .text ∨ ∃ q n, found e t = .quote q n := by
  unfold found
  cases (if e.quote then opening t else none) with
  | none => exact .inl rfl
  | some p => exact .inr ⟨p.1, p.2, rfl⟩

theorem layout_facing {g : Text} (hg : Gap g) {d : Char} (hd : isInk d = true) (e : Expect)
    (n : Nat) (r : Text) :
    (Cursor.facing n (g ++ d :: r)).layout? e =
      match (if e.quote then opening (d :: r) else none) with
      | some (q, k) => some (.quote q k, .facing (n + g.length) (d :: r))
      | none => none := by
  have hplace : n + (g ++ d :: r).length - (d :: r).length = n + g.length := by
    simp only [List.length_append]
    omega
  have hsize : n + (g ++ d :: r).length = n + g.length + (d :: r).length := by
    simp only [List.length_append]
    omega
  simp only [Cursor.layout?, Cursor.facing_rest, blanks_gap _ hg hd, Bool.false_and,
    Bool.false_eq_true, if_false, Option.isNone_none, Bool.and_true]
  cases e.quote with
  | false => simp
  | true =>
    cases opening (d :: r) with
    | none => simp
    | some p =>
      show some (Layout.quote p.1 p.2, Cursor.mk (d :: r) (n + (g ++ d :: r).length -
        (d :: r).length) (n + (g ++ d :: r).length) [] false) = _
      rw [hplace, hsize]
      rfl

/-- Looking past the blanks in front of a token. -/
theorem look_facing {g : Text} (hg : Gap g) {d : Char} (hd : isInk d = true) (e : Expect)
    (n : Nat) (r : Text) :
    look e (.facing n (g ++ d :: r)) =
      some (([], found e (d :: r)), .facing (n + g.length) (d :: r)) := by
  rw [look, get_bind, lookWithin, get_bind, layout_facing hg hd]
  unfold found
  cases ho : (if e.quote then opening (d :: r) else none) with
  | some p => rfl
  | none =>
    have hopening : (e.quote && (opening (d :: r)).isSome) = false := by
      cases hq : e.quote with
      | false => rfl
      | true => simpa [hq] using ho
    dsimp only
    rw [skip_facing hg hd, Cursor.facing_rest, extra_of_isInk hd]
    dsimp only
    rw [set_bind, hopening]
    rfl

/-- Looking where a token stands already. -/
theorem look_ink {d : Char} (hd : isInk d = true) (e : Expect) (n : Nat) (r : Text) :
    look e (.facing n (d :: r)) = some (([], found e (d :: r)), .facing n (d :: r)) :=
  look_facing gap_nil hd e n r

/-- At the end of the text a line ends, if that is expected. -/
theorem look_end (e : Expect) (n : Nat) :
    look e (.facing n []) =
      some (([], if e.newline then .newline else .text), .facing n []) := by
  rw [look, get_bind, lookWithin, get_bind]
  cases hn : e.newline with
  | true => simp [Cursor.layout?, Cursor.facing, blanks, hn]; rfl
  | false =>
    have hlayout : (Cursor.facing n []).layout? e = none := by
      simp [Cursor.layout?, Cursor.facing, blanks, hn, opening]
    have hskip : (Cursor.facing n []).skip = .facing n [] := rfl
    have hextra : extra? [] = none := rfl
    rw [hlayout]
    dsimp only
    rw [hskip, Cursor.facing_rest, hextra]
    dsimp only
    rw [set_bind]
    simp [opening]
    rfl

/-- The text that comes next, for what does not look for quotations. -/
theorem peek_facing {g : Text} (hg : Gap g) {d : Char} (hd : isInk d = true) {e : Expect}
    {r : Text} (he : found e (d :: r) = .text) (n : Nat) :
    peek e (.facing n (g ++ d :: r)) = some (d :: r, .facing n (g ++ d :: r)) := by
  rw [peek, get_bind, bind_of_some (look_facing hg hd e n r)]
  dsimp only
  rw [get_bind, set_bind, he]
  rfl

theorem peek_end (e : Expect) (n : Nat) : peek e (.facing n []) = some ([], .facing n []) := by
  rw [peek, get_bind, bind_of_some (look_end e n)]
  dsimp only
  rw [get_bind, set_bind, Cursor.facing_rest, ite_self]
  rfl

/-- A token behind blanks. -/
theorem token_facing {g : Text} (hg : Gap g) {w t : Text} {d : Char} {r : Text}
    (hw : w ++ t = d :: r) (hd : isInk d = true) {e : Expect} (he : found e (w ++ t) = .text)
    {measure : Text → Option Nat} (hm : measure (w ++ t) = some w.length) (n : Nat) :
    token e measure (.facing n (g ++ (w ++ t))) =
      some (⟨[], [], n + g.length, n + g.length + w.length⟩,
        .facing (n + g.length + w.length) t) := by
  have hlook := look_facing hg hd e n r
  rw [← hw, he] at hlook
  rw [token, bind_of_some hlook]
  dsimp only
  rw [get_bind, Cursor.facing_rest, hm]
  dsimp only
  rw [set_bind, Cursor.advance_facing]
  rfl

theorem token_facing_none {g : Text} (hg : Gap g) {d : Char} {r : Text} (hd : isInk d = true)
    {measure : Text → Option Nat} (hm : measure (d :: r) = none) (e : Expect) (n : Nat) :
    token e measure (.facing n (g ++ d :: r)) = none := by
  rw [token, bind_of_some (look_facing hg hd e n r)]
  dsimp only
  rw [get_bind, Cursor.facing_rest, hm]
  cases found e (d :: r) <;> rfl

/-- A word that is not there. -/
theorem keyword_facing_none {g : Text} (hg : Gap g) {d : Char} {r : Text} (hd : isInk d = true)
    {w : String} (hw : Text.word (d :: r) ≠ w.toList) (e : Expect) (n : Nat) :
    keyword e w (.facing n (g ++ d :: r)) = none :=
  token_facing_none hg hd (by simp [wordLength?, hw]) e n

theorem token_end {measure : Text → Option Nat} (hm : measure [] = none) (e : Expect) (n : Nat) :
    token e measure (.facing n []) = none := by
  rw [token, bind_of_some (look_end e n)]
  dsimp only
  rw [get_bind, Cursor.facing_rest, hm]
  cases e.newline <;> rfl

end PointMutation.Syntax
