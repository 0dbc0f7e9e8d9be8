import Mathlib.Data.List.Infix
import Mathlib.Data.List.Nodup

/-!
# Longest prefixes

Among keyed entries, the one whose key is the longest prefix of a given list. What is found
depends on the set of the entries only, if no two of them have the same key.

`Longest` is the specification, and the lemmas are the rounds of a loop that looks at the entries
one by one and keeps the best so far. The list is what the loop has looked at so far, so that the
next entry goes behind it and is compared with what was found.
-/

namespace BitThunder

variable {α β : Type} {key : α → List β} {p : List β} {l l' : List α} {a : α} {r r' : Option α}

/-- The entry of `l` whose key is the longest prefix of `p`, if there is one. -/
def Longest (key : α → List β) (p : List β) (l : List α) : Option α → Prop
  | none => ∀ a ∈ l, ¬ key a <+: p
  | some a => a ∈ l ∧ key a <+: p ∧ ∀ b ∈ l, key b <+: p → (key b).length ≤ (key a).length

namespace Longest

theorem nil : Longest key p [] none := fun _ h => absurd h List.not_mem_nil

/-- Only the entries count. -/
theorem congr (h : Longest key p l r) (hl : ∀ a, a ∈ l ↔ a ∈ l') : Longest key p l' r := by
  cases r with
  | none => exact fun a ha => h a ((hl a).mpr ha)
  | some a => exact ⟨(hl a).mp h.1, h.2.1, fun b hb => h.2.2 b ((hl b).mpr hb)⟩

/-- An entry that does not match changes nothing. -/
theorem skip (h : Longest key p l r) (ha : ¬ key a <+: p) : Longest key p (l ++ [a]) r := by
  cases r with
  | none =>
    intro b hb
    obtain hb | hb := List.mem_append.mp hb
    · exact h b hb
    · exact List.mem_singleton.mp hb ▸ ha
  | some c =>
    refine ⟨List.mem_append_left _ h.1, h.2.1, fun b hb hbp => ?_⟩
    obtain hb | hb := List.mem_append.mp hb
    · exact h.2.2 b hb hbp
    · exact absurd (List.mem_singleton.mp hb ▸ hbp) ha

/-- The first match, or a longer one, takes the place of what there was. -/
theorem take (h : Longest key p l r) (ha : key a <+: p)
    (hlt : ∀ c, r = some c → (key c).length < (key a).length) :
    Longest key p (l ++ [a]) (some a) := by
  refine ⟨List.mem_append_right _ (List.mem_singleton_self a), ha, fun b hb hbp => ?_⟩
  obtain hb | hb := List.mem_append.mp hb
  · cases r with
    | none => exact absurd hbp (h b hb)
    | some c => exact (h.2.2 b hb hbp).trans (hlt c rfl).le
  · rw [List.mem_singleton.mp hb]

/-- A match that is no longer is passed over. -/
theorem keep {c : α} (h : Longest key p l (some c)) (hle : (key a).length ≤ (key c).length) :
    Longest key p (l ++ [a]) (some c) := by
  refine ⟨List.mem_append_left _ h.1, h.2.1, fun b hb hbp => ?_⟩
  obtain hb | hb := List.mem_append.mp hb
  · exact h.2.2 b hb hbp
  · exact List.mem_singleton.mp hb ▸ hle

/-- A match as long as `p` itself cannot be beaten. -/
theorem stop {c : α} (h : Longest key p l (some c)) (hlen : p.length ≤ (key c).length) :
    Longest key p (l ++ l') (some c) :=
  ⟨List.mem_append_left _ h.1, h.2.1, fun _ _ hb => hb.length_le.trans hlen⟩

/-- Two prefixes of one list of the same length are the same. -/
theorem key_eq {b : α} (ha : key a <+: p) (hb : key b <+: p)
    (hlen : (key a).length = (key b).length) :
    key a = key b := (List.prefix_of_prefix_length_le ha hb hlen.le).eq_of_length hlen

/-- If the keys are distinct there is one answer. -/
theorem unique (hd : (l.map key).Nodup) (h : Longest key p l r)
    (h' : Longest key p l r') : r = r' := by
  cases r with
  | none =>
    cases r' with
    | none => rfl
    | some b => exact absurd h'.2.1 (h b h'.1)
  | some a =>
    cases r' with
    | none => exact absurd h.2.1 (h' a h.1)
    | some b =>
      have hlen : (key a).length = (key b).length :=
        (h'.2.2 a h.1 h.2.1).antisymm (h.2.2 b h'.1 h'.2.1)
      exact congrArg some (List.inj_on_of_nodup_map hd h.1 h'.1 (key_eq h.2.1 h'.2.1 hlen))

end Longest

end BitThunder
