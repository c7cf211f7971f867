import GhRunner.Shared.FallbackMasking

namespace GhRunner.Shared

open Text Utf8 Spans

/-!
# Secrets in longer encoded texts

A secret is registered in base64 without padding (`add_pattern` of `crates/shared/src/secret_masker.rs`), so
that its digits are also those of the secret with a line feed behind it.

* `encoded_secret_hidden` — every digit that has bits of the secret is hidden, whatever follows it, as long
  as that begins with four zero bits;
* `encoded_secret_printed` — of the blanks that are trimmed from the secret, those in front move its digits;
  and the replacement loop can take a last digit for the first one of another form.
-/

/-- After the registration of a secret, and with the automaton: of the text that encodes the trimmed secret
    and bytes behind it of which the first is below sixteen, each digit with bits of the secret is covered,
    and what is covered is replaced. -/
theorem encoded_secret_hidden {A : AhoCorasick} (secret : Str) (hlong : minSecretLen ≤ utf8Len (trim secret))
    (calls : List Call) (hregistered : .secret secret ∈ calls.flatMap Call.registrations)
    (hpath : (SecretMasker.after calls : SecretMasker A).UsesAutomaton)
    (more : List UInt8) (hmore : ∀ b ∈ more.head?, b.toNat < 16) :
    let m : SecretMasker A := SecretMasker.after calls
    let text := Base64.encodePadded Base64.standard (bytes (trim secret) ++ more)
    m.mask text = redact stars (coveredBy m.patterns text) text ∧
      ∀ i, 6 * i < 8 * (bytes (trim secret)).length → coveredBy m.patterns text i = true := by
  intro m text
  refine ⟨mask_eq_redact (SecretMasker.sound_after calls) hpath text, fun i hi => coveredBy_iff.mpr ?_⟩
  have hlength := Base64.length_encode Base64.standard (bytes (trim secret))
  have hlen : 4 ≤ (bytes (trim secret)).length := hlong
  have hform : Base64.encode Base64.standard (bytes (trim secret)) ∈ secretForms secret := by
    rw [secretForms, if_neg (by omega)]
    refine List.mem_append_left _ (List.mem_append_right _ (List.mem_filter.mpr ⟨?_, ?_⟩))
    · simp [variants]
    · have hle := length_le_utf8Len (Base64.encode Base64.standard (bytes (trim secret)))
      exact decide_eq_true (show minSecretLen ≤ _ by rw [minSecretLen]; omega)
  refine ⟨_, (SecretMasker.mem_after calls).mpr ⟨_, hregistered, hform⟩, 0, Nat.zero_le i, by omega, ?_⟩
  exact (Base64.encode_prefix_append _ _ hmore).trans (List.prefix_append _ _)

/-- A secret in front of a line feed. -/
theorem encoded_secret_hidden_newline :
    let m : SecretMasker scanning := SecretMasker.after [.addSecret "abcd".toList]
    let text := Base64.encodePadded Base64.standard (bytes (trim "abcd".toList) ++ [10])
    m.mask text = redact stars (coveredBy m.patterns text) text ∧
      ∀ i, 6 * i < 8 * (bytes (trim "abcd".toList)).length → coveredBy m.patterns text i = true :=
  encoded_secret_hidden "abcd".toList (by decide) [.addSecret "abcd".toList]
    (by simp [Call.registrations]) (fun _ => rfl) [10] (by simp)

/-- A blank in front of the secret is encoded with it, but not registered; and where the loop takes the
    longer form `6A…` out first, the digits of the secret in front of it stay. -/
theorem encoded_secret_printed :
    (let m : SecretMasker scanning := SecretMasker.after [.addSecret " abcd".toList]
      let text := Base64.encodePadded Base64.standard (bytes " abcd".toList ++ [10])
      text = "IGFiY2QK".toList ∧ m.mask text = text) ∧
    (let m : SecretMasker scanning := SecretMasker.after [.addSecret "jabcdz".toList]
      let text := Base64.encodePadded Base64.standard (bytes "jabcdz".toList ++
        [3, 173, 122, 219, 173, 250, 227, 176])
      text = "amFiY2R6A616263647A=".toList ∧ m.maskWithReplaceLoop text = "amFiY2R***=".toList) := by
  decide

end GhRunner.Shared
