import CLint.Token.Lexer
import Mathlib.Data.List.Nodup

namespace CLint

theorem Keyword.ofText?_text (k : Keyword) : ofText? k.text = some k := by
  cases k <;> decide

theorem Keyword.text_injective {k k' : Keyword} (h : k.text = k'.text) : k = k' := by
  have := ofText?_text k
  rw [h, ofText?_text] at this
  exact (Option.some.inj this).symm

theorem Punct.text_injective {p q : Punct} (h : p.text = q.text) : p = q := by
  have hnodup : (all.map chars).Nodup := by decide
  exact List.inj_on_of_nodup_map hnodup p.mem_all q.mem_all (String.ofList_injective h)

namespace Lexeme

open Lexer

-- What the lexemes of one kind can be told apart by: how a literal begins, and whether there is a
-- quote in what begins nothing.
def Typical : Lexeme → Prop
  | number t => ∃ c ∈ t.toList.head?, c.isDigit ∨ c = '.'
  | quoted t => ∃ c ∈ t.toList.head?, isQuote c ∨ c ∈ ['u', 'U', 'L']
  | openQuote t => ∃ c ∈ t.toList, isQuote c
  | stray c => isQuote c = false
  | _ => True

theorem ne_of_typical_number_quoted {t u : String} (hn : (number t).Typical)
    (hq : (quoted u).Typical) : t ≠ u := by
  rintro rfl
  obtain ⟨c, hc, hn⟩ := hn
  obtain ⟨d, hd, hq⟩ := hq
  cases Option.mem_unique hc hd
  rcases hn with hn | rfl
  · simp only [isQuote, Bool.or_eq_true, decide_eq_true_eq, List.mem_cons, List.not_mem_nil,
      or_false] at hq
    rcases hq with (rfl | rfl) | rfl | rfl | rfl <;> cases hn
  · simp [isQuote] at hq

theorem ne_of_typical_stray_openQuote {c : Char} {t : String} (hs : (stray c).Typical)
    (ho : (openQuote t).Typical) : String.singleton c ≠ t := by
  rintro rfl
  obtain ⟨d, hd, ho⟩ := ho
  simp only [String.toList_singleton, List.mem_singleton] at hd
  subst hd
  cases hs.symm.trans ho

theorem eq_of_typical {l m : Lexeme} (hl : l.Typical) (hm : m.Typical) (hk : l.kind = m.kind)
    (ht : l.text = m.text) : l = m := by
  cases l <;> cases m <;> cases hk <;> try exact congrArg _ ht
  case quoted.number => exact absurd ht.symm (ne_of_typical_number_quoted hm hl)
  case number.quoted => exact absurd ht (ne_of_typical_number_quoted hl hm)
  case openQuote.stray => exact absurd ht.symm (ne_of_typical_stray_openQuote hm hl)
  case stray.openQuote => exact absurd ht (ne_of_typical_stray_openQuote hl hm)
  case keyword.keyword => exact congrArg _ (Keyword.text_injective ht)
  case punct.punct => exact congrArg _ (Punct.text_injective ht)
  case stray.stray => exact congrArg _ (by simpa [text] using ht)

end Lexeme

namespace Lexer

variable {cs : List Char}

theorem of_literalStart {lead rest : List Char} {quote : Char}
    (h : literalStart cs = some (lead, quote, rest)) :
    isQuote quote ∧ ∀ c ∈ lead.head?, c ∈ ['u', 'U', 'L'] := by
  unfold literalStart at h
  split at h
  case h_1 | h_2 =>
    cases h
    exact ⟨rfl, fun c hc => Option.some.inj hc ▸ List.mem_cons_self⟩
  case h_3 =>
    split at h
    case isTrue hq =>
      cases h
      exact ⟨hq, by simp⟩
    case isFalse =>
      split at h <;> cases h
      case isTrue.refl hq _ _ =>
        simp only [Bool.and_eq_true, Bool.or_eq_true, decide_eq_true_eq] at hq
        obtain ⟨(rfl | rfl) | rfl, hq⟩ := hq <;> exact ⟨hq, by simp⟩
  case h_4 =>
    split at h <;> cases h
    case isTrue.refl hq => exact ⟨hq, by simp⟩
  case h_5 => cases h

theorem typical_literal {lead rest : List Char} {quote : Char}
    (h : literalStart cs = some (lead, quote, rest)) : (literal lead quote rest).1.Typical := by
  obtain ⟨hq, hl⟩ := of_literalStart h
  unfold literal
  split
  case h_1 =>
    cases lead with
    | nil => exact ⟨quote, by simp, .inl hq⟩
    | cons c lead => exact ⟨c, by simp, .inr (hl c rfl)⟩
  case h_2 => exact ⟨quote, by simp, hq⟩

theorem typical_number {lead rest : List Char} (h : numberStart cs = some (lead, rest)) :
    (number lead rest).1.Typical := by
  unfold numberStart at h
  split at h
  case h_1 =>
    split at h <;> cases h
    exact ⟨'.', by simp, .inr rfl⟩
  case h_2 =>
    split at h <;> cases h
    case isTrue.refl hc _ => exact ⟨_, by simp, .inl hc⟩
  case h_3 => cases h

theorem typical_code (c : Char) (cs : List Char) : (code c cs).1.Typical := by
  unfold code
  split
  case h_1 h => exact typical_literal h
  case h_2 hl =>
    split
    case h_1 h => exact typical_number h
    case h_2 =>
      split
      case isTrue =>
        unfold word named
        split <;> trivial
      case isFalse =>
        unfold mark
        split
        case h_1 => trivial
        case h_2 =>
          cases hq : isQuote c
          case false => exact hq
          case true =>
            have : (literalStart (c :: cs)).isSome := by
              unfold literalStart
              split <;> simp_all
            simp [hl] at this

theorem typical_next (c : Char) (cs : List Char) : (next c cs).1.Typical := by
  unfold next
  split
  case h_6 =>
    split
    · trivial
    · exact typical_code ..
  all_goals trivial

theorem typical_of_mem_lexemes {l : Lexeme} (h : l ∈ lexemes cs) : l.Typical := by
  fun_induction lexemes cs with
  | case1 => contradiction
  | case2 c cs ih =>
    cases List.mem_cons.mp h
    case inl h => exact h ▸ typical_next c cs
    case inr h => exact ih h

end Lexer
end CLint
