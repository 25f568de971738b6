import LiveDocument.Json.Tree
import LiveDocument.Proofs.Literals
import Mathlib.Data.List.Chain

/-!
# Texts of JSON values

A value is read back from the text that it writes (`Json.read?_render`), so the strict
format keeps what any format is asked to keep (`Json.Format.lawful_strict`). No value has two
scalars in a row (`Progress.apart_of_foldlM`), so no token runs on into the next one.
-/

namespace LiveDocument

/-- Whether the scalar can be read from what is written for it. A decimal is written as it
is, and may be anything. -/
def Scalar.IsWritable : Scalar → Prop
  | .decimal literal => Numeral.read? literal = some (.decimal literal, [])
  | _ => True

/-- Whether the scalar is one that every format keeps: a number with digits alone has 64
bits, and a string has a text. -/
def Scalar.IsPortable : Scalar → Prop
  | .natural value => value < UInt64.size
  | .decimal _ => False
  | .string text? => text?.isSome = true
  | _ => True

theorem Scalar.IsPortable.isWritable {scalar : Scalar} (portable : scalar.IsPortable) :
    scalar.IsWritable := by
  cases scalar with
  | decimal literal => exact portable.elim
  | _ => trivial

namespace Token

def isScalar : Token → Bool
  | scalar _ => true
  | _ => false

theorem next?_of_numeral {text rest : Text} {number : Scalar}
    (read : Numeral.read? text = some (number, rest)) :
    next? text = some (scalar number, rest) := by
  unfold next?
  split
  case h_11 => rw [read]; rfl
  all_goals cases read

theorem next?_render {token : Token} {rest : Text}
    (writable : ∀ value, token = scalar value → value.IsWritable)
    (ends : token.isScalar = true → Numeral.Ends rest) :
    next? (token.render ++ rest) = some (token, rest) := by
  cases token with
  | scalar value =>
      cases value with
      | null => rfl
      | boolean value => cases value <;> rfl
      | natural value =>
          exact next?_of_numeral (Numeral.read?_append (Numeral.read?_render value) (ends rfl))
      | decimal literal =>
          exact next?_of_numeral (Numeral.read?_append (writable _ rfl) (ends rfl))
      | string content =>
          obtain ⟨body, written, read⟩ := Quoted.render_eq_cons content
          rw [render, renderScalar, written, List.cons_append, next?, read]
          rfl
  | _ => rfl

theorem ends_render {token : Token} (punctuation : token.isScalar = false) (rest : Text) :
    Numeral.Ends (token.render ++ rest) := by
  cases token with
  | scalar value => cases punctuation
  | _ => exact Numeral.ends_cons (by decide)

/-- A token does not start with a blank. -/
theorem dropWhile_isBlank_of_next? {text : Text} {found : Token × Text}
    (read : next? text = some found) :
    text.dropWhile isBlank = text ∧ text.isEmpty = false := by
  cases text with
  | nil => cases read
  | cons c rest =>
      refine ⟨List.dropWhile_cons_of_neg fun blank => ?_, rfl⟩
      simp only [isBlank, Bool.or_eq_true, beq_iff_eq] at blank
      rcases blank with ((rfl | rfl) | rfl) | rfl <;> cases read

/-- No two scalars come in a row. -/
def Apart (tokens : List Token) : Prop :=
  tokens.IsChain fun first second => ¬ (first.isScalar = true ∧ second.isScalar = true)

theorem go_of_next? {text rest : Text} {token : Token} (read : next? text = some (token, rest))
    (done : Array Token) : ofText?.go done text = ofText?.go (done.push token) rest := by
  obtain ⟨noBlank, nonempty⟩ := dropWhile_isBlank_of_next? read
  rw [ofText?.go]
  simp only [noBlank, nonempty, Bool.false_eq_true, if_false]
  split
  · rename_i unread
    rw [noBlank, read] at unread
    cases unread
  · rename_i found
    rw [noBlank, read] at found
    cases found
    rfl

theorem go_flatMap_render {tokens : List Token}
    (writable : ∀ value, scalar value ∈ tokens → value.IsWritable) (apart : Apart tokens)
    (done : Array Token) :
    ofText?.go done (tokens.flatMap render) = some (done ++ tokens) := by
  induction tokens generalizing done with
  | nil => simp [ofText?.go]
  | cons token rest ih =>
      have ends : token.isScalar = true → Numeral.Ends (rest.flatMap render) := by
        intro isScalar
        cases rest with
        | nil => exact Numeral.ends_nil
        | cons next later =>
            have punctuation : next.isScalar = false := by
              have together := (List.isChain_cons_cons.1 apart).1
              simpa [isScalar] using together
            exact ends_render punctuation _
      have first := next?_render (fun value isValue => writable value (by simp [isValue])) ends
      rw [List.flatMap_cons, go_of_next? first,
        ih (fun value member => writable value (List.mem_cons_of_mem _ member)) apart.tail]
      simp

theorem ofText?_flatMap_render {tokens : List Token}
    (writable : ∀ value, scalar value ∈ tokens → value.IsWritable) (apart : Apart tokens) :
    ofText? (tokens.flatMap render) = some tokens.toArray := by
  rw [ofText?, go_flatMap_render writable apart]
  simp

end Token

namespace Json

namespace Progress

/-! ## Trees -/

theorem step_afterValue_scalar (value : Json) (frames : List Frame) (next : Scalar) :
    (afterValue value frames).step (.scalar next) = none := by
  rcases frames with _ | ⟨_ | _, _⟩ <;> rfl

/-- No scalar can stand behind another one. -/
theorem step_of_scalar {progress next : Progress} {first : Scalar}
    (taken : progress.step (.scalar first) = some next) (second : Scalar) :
    next.step (.scalar second) = none := by
  cases progress with
  | beforeValue frames =>
      cases taken
      exact step_afterValue_scalar _ _ second
  | afterOpenArray frames =>
      cases taken
      exact step_afterValue_scalar _ _ second
  | afterOpenObject frames =>
      cases first with
      | string name =>
          cases taken
          rfl
      | _ => cases taken
  | beforeName members frames =>
      cases first with
      | string name =>
          cases taken
          rfl
      | _ => cases taken
  | afterName members name frames => cases taken
  | afterValue value frames =>
      rw [step_afterValue_scalar] at taken
      cases taken

theorem apart_of_foldlM {tokens : List Token} {progress last : Progress}
    (taken : tokens.foldlM step progress = some last) : Token.Apart tokens := by
  induction tokens generalizing progress with
  | nil => exact List.IsChain.nil
  | cons first rest ih =>
      rw [List.foldlM_cons] at taken
      obtain ⟨next, firstTaken, restTaken⟩ := Option.bind_eq_some_iff.1 taken
      have restApart := ih restTaken
      cases rest with
      | nil => exact List.IsChain.singleton first
      | cons second later =>
          refine List.isChain_cons_cons.2 ⟨?_, restApart⟩
          rintro ⟨firstScalar, secondScalar⟩
          rw [List.foldlM_cons] at restTaken
          obtain ⟨_, secondTaken, _⟩ := Option.bind_eq_some_iff.1 restTaken
          cases first <;> cases firstScalar
          cases second <;> cases secondScalar
          cases (step_of_scalar firstTaken _).symm.trans secondTaken

theorem foldlM_tokens_afterOpenArray (value : Json) (frames : List Frame) :
    value.tokens.foldlM step (afterOpenArray frames) =
      value.tokens.foldlM step (beforeValue (.array [] :: frames)) := by
  cases value <;> rfl

mutual

/-- The tokens of a value lead to it, whatever is still open around it. -/
theorem foldlM_tokens : ∀ (value : Json) (frames : List Frame),
    value.tokens.foldlM step (beforeValue frames) = some (afterValue value frames)
  | .scalar value, frames => rfl
  | .array [], frames => rfl
  | .array (first :: rest), frames => by
      have firstTaken := (foldlM_tokens_afterOpenArray first frames).trans (foldlM_tokens first _)
      change ((first.tokens ++ furtherItems rest) ++ [Token.closeArray]).foldlM step
        (afterOpenArray frames) = _
      rw [List.append_assoc, List.foldlM_append, firstTaken]
      exact foldlM_furtherItems rest first [] frames
  | .object [], frames => rfl
  | .object ((name, first) :: rest), frames => by
      change ((first.tokens ++ furtherMembers rest) ++ [Token.closeObject]).foldlM step
        (beforeValue (.object [] name :: frames)) = _
      rw [List.append_assoc, List.foldlM_append, foldlM_tokens first]
      exact foldlM_furtherMembers rest first [] name frames

/-- The items after `last` come behind it and those before it, which are in reverse
order. -/
theorem foldlM_furtherItems : ∀ (rest : List Json) (last : Json) (items : List Json)
    (frames : List Frame),
    (furtherItems rest ++ [Token.closeArray]).foldlM step
        (afterValue last (.array items :: frames)) =
      some (afterValue (.array ((last :: items).reverse ++ rest)) frames)
  | [], last, items, frames => by
      rw [List.append_nil]
      rfl
  | item :: rest, last, items, frames => by
      change ((item.tokens ++ furtherItems rest) ++ [Token.closeArray]).foldlM step
        (beforeValue (.array (last :: items) :: frames)) = _
      rw [List.append_assoc, List.foldlM_append, foldlM_tokens item]
      refine (foldlM_furtherItems rest item (last :: items) frames).trans ?_
      rw [List.reverse_cons, List.append_assoc]
      rfl

theorem foldlM_furtherMembers : ∀ (rest : List (Option Text × Json)) (last : Json)
    (members : List (Option Text × Json)) (name : Option Text) (frames : List Frame),
    (furtherMembers rest ++ [Token.closeObject]).foldlM step
        (afterValue last (.object members name :: frames)) =
      some (afterValue (.object (((name, last) :: members).reverse ++ rest)) frames)
  | [], last, members, name, frames => by
      rw [List.append_nil]
      rfl
  | (next, value) :: rest, last, members, name, frames => by
      change ((value.tokens ++ furtherMembers rest) ++ [Token.closeObject]).foldlM step
        (beforeValue (.object ((name, last) :: members) next :: frames)) = _
      rw [List.append_assoc, List.foldlM_append, foldlM_tokens value]
      refine (foldlM_furtherMembers rest value ((name, last) :: members) next frames).trans ?_
      rw [List.reverse_cons, List.append_assoc]
      rfl

end

end Progress

theorem ofTokens?_tokens (value : Json) : ofTokens? value.tokens = some value := by
  rw [ofTokens?, Progress.foldlM_tokens]
  rfl

theorem apart_tokens (value : Json) : Token.Apart value.tokens :=
  Progress.apart_of_foldlM (Progress.foldlM_tokens value [])

/-! ## Scalars of a value -/

/-- Every scalar of the value, the names of members included, has the property. -/
def Each (property : Scalar → Prop) (value : Json) : Prop :=
  ∀ scalar, Token.scalar scalar ∈ value.tokens → property scalar

/-- Whether every format keeps the value. -/
abbrev IsPortable (value : Json) : Prop := value.Each Scalar.IsPortable

section Each

variable {property : Scalar → Prop}

theorem each_scalar {value : Scalar} (has : property value) : (scalar value).Each property := by
  intro other member
  cases List.mem_singleton.1 member
  exact has

theorem each_furtherItems {items : List Json} (each : ∀ item ∈ items, item.Each property)
    {scalar : Scalar} (member : Token.scalar scalar ∈ furtherItems items) :
    property scalar := by
  induction items with
  | nil => cases member
  | cons item rest ih =>
      simp only [furtherItems, List.cons_append, List.mem_cons, List.mem_append,
        reduceCtorEq, false_or] at member
      rcases member with inItem | inRest
      · exact each item List.mem_cons_self scalar inItem
      · exact ih (fun other isIn => each other (List.mem_cons_of_mem _ isIn)) inRest

theorem each_array {items : List Json} (each : ∀ item ∈ items, item.Each property) :
    (array items).Each property := by
  intro scalar member
  refine each_furtherItems each ?_
  cases items with
  | nil => simp [tokens, arrayTokens] at member
  | cons item rest => simpa [tokens, arrayTokens, furtherItems] using member

theorem each_furtherMembers {members : List (Option Text × Json)}
    (names : ∀ member ∈ members, property (.string member.1))
    (values : ∀ member ∈ members, member.2.Each property)
    {scalar : Scalar} (member : Token.scalar scalar ∈ furtherMembers members) :
    property scalar := by
  induction members with
  | nil => cases member
  | cons first rest ih =>
      obtain ⟨name, value⟩ := first
      simp only [furtherMembers, List.cons_append, List.mem_cons, List.mem_append,
        reduceCtorEq, false_or, Token.scalar.injEq] at member
      rcases member with isName | inValue | inRest
      · rw [isName]
        exact names (name, value) List.mem_cons_self
      · exact values (name, value) List.mem_cons_self scalar inValue
      · exact ih (fun other isIn => names other (List.mem_cons_of_mem _ isIn))
          (fun other isIn => values other (List.mem_cons_of_mem _ isIn)) inRest

theorem each_object {members : List (Option Text × Json)}
    (names : ∀ member ∈ members, property (.string member.1))
    (values : ∀ member ∈ members, member.2.Each property) :
    (object members).Each property := by
  intro scalar member
  refine each_furtherMembers names values ?_
  cases members with
  | nil => simp [tokens, objectTokens] at member
  | cons first rest => simpa [tokens, objectTokens, furtherMembers] using member

end Each

/-- A value is read back from its text. -/
theorem read?_render {value : Json} (writable : value.Each Scalar.IsWritable) :
    read? value.render = some value := by
  rw [read?, render, Token.ofText?_flatMap_render writable value.apart_tokens]
  exact value.ofTokens?_tokens

/-- The law of a format: what it writes it reads back, as long as all scalars are ones that
every format keeps. -/
def Format.Lawful (format : Format) : Prop :=
  ∀ value : Json, value.IsPortable → format.read? (format.render value) = some value

theorem Format.lawful_strict : Format.strict.Lawful := fun _ portable =>
  read?_render fun scalar member => (portable scalar member).isWritable

end Json

end LiveDocument
