import Mathlib.Data.List.TakeWhile
import UnixCommons.HTTP.Idna

/-! # ホストの国際化の補題 -/

namespace UnixCommons.HTTP

open Lib String.AsciiStringManip String.JsUnicode String.UTF8Handler String.Punycode

variable {lowerAndNormalize : List Nat → Bool → Option (List Nat)} {hosts hosts' : Hosts} {host : Bytes}

theorem stop_mapError {α ε ε' : Type} {f : ε → ε'} {x : Except ε α} {a : α} : x.mapError f = .ok a ↔ x = .ok a := by
  cases x <;> simp [Except.mapError]

theorem decodeLabel_ok {lab : List Nat} {alabel : Bytes} {wlab : Option (List Nat)} {unicode : Bool}
    (h : decodeLabel lowerAndNormalize lab = .ok (alabel, wlab, unicode)) (hne : lab ≠ []) :
    (unicode = false → alabel ≠ []) ∧ (unicode = true → wlab = some lab ∧ lab.any nonAscii = true) ∧ ∀ w ∈ wlab, w ≠ [] := by
  unfold decodeLabel at h
  split at h
  next hany =>
      obtain ⟨rfl, rfl, rfl⟩ : _ = alabel ∧ some lab = wlab ∧ true = unicode := by simpa [pure, Except.pure] using h
      exact ⟨fun h => (by cases h), fun _ => ⟨rfl, hany⟩, fun w hw => by rwa [← Option.some.inj hw]⟩
  next hany =>
      dsimp only at h
      split at h
      · cases h
      next =>
          -- ASCII のラベルは、全体が `alabel` になる。
          have hall : (lab.takeWhile fun ch => decide ¬ nonAscii ch = true) = lab := by
            rw [List.takeWhile_eq_self_iff]
            intro ch hch
            have : nonAscii ch ≠ true := fun hn => hany (List.any_eq_true.mpr ⟨ch, hch, hn⟩)
            simp [this]
          rw [hall] at h
          obtain ⟨w, hd, h⟩ := bind_eq_ok.mp h
          obtain ⟨rfl, rfl, rfl⟩ : lab.map narrow = alabel ∧ w = wlab ∧ false = unicode := by
            simpa [pure, Except.pure] using h
          refine ⟨fun _ => by simpa using hne, fun h => (by cases h), ?_⟩
          rintro w rfl
          unfold decodePunycode at hd
          split at hd
          · cases hd
          · obtain ⟨r, hp, hd⟩ := bind_eq_ok.mp hd
            cases r with
            | none => cases hd
            | some decoded =>
                have hfilter : (lowerAndNormalize decoded false).filter
                    (fun normalized => decide (normalized ≠ [])) = some w := by
                  simpa [pure, Except.pure] using hd
                obtain ⟨-, hw⟩ := Option.filter_eq_some_iff.mp hfilter
                exact of_decide_eq_true hw

theorem refuse_ok {unicode r : Bool} {e : LabelError} (h : refuse unicode e hosts = .ok (r, hosts')) :
    unicode = false ∧ r = false ∧ hosts' = hosts := by
  unfold refuse at h
  split at h
  · cases h
  next hu =>
      obtain ⟨rfl, rfl⟩ : false = r ∧ hosts = hosts' := by simpa [pure, Except.pure] using h
      exact ⟨eq_false_of_ne_true hu, rfl, rfl⟩

theorem writeEncoded_ok {wlabel : List Nat} {encoded : Bytes} {unicode r : Bool}
    (h : writeEncoded wlabel encoded unicode hosts = .ok (r, hosts')) :
    (r = false → unicode = false ∧ hosts'.ascii = hosts.ascii) ∧
      (r = true → ∃ text, text ≠ [] ∧ hosts'.ascii = hosts.ascii ++ text ++ [labelSeparator]) := by
  have hrefuse : ∀ (e : LabelError) (other : Hosts), other.ascii = hosts.ascii → refuse unicode e other = .ok (r, hosts') →
      (r = false → unicode = false ∧ hosts'.ascii = hosts.ascii) ∧
        (r = true → ∃ text, text ≠ [] ∧ hosts'.ascii = hosts.ascii ++ text ++ [labelSeparator]) := by
    intro e other he hr
    obtain ⟨hu, rfl, rfl⟩ := refuse_ok hr
    exact ⟨fun _ => ⟨hu, he⟩, fun h => (by cases h)⟩
  unfold writeEncoded at h
  split at h
  · exact hrefuse _ _ rfl h
  · split at h
    · cases h
    · split at h
      · exact hrefuse _ _ rfl h
      · split at h
        next text _ => exact hrefuse _ ⟨hosts.ascii, text⟩ rfl h
        next =>
            obtain ⟨rfl, rfl⟩ := Prod.mk.inj (Except.ok.inj h)
            refine ⟨fun h => (by cases h), fun _ => ⟨idnaPrefix ++ encoded, by simp [idnaPrefix], ?_⟩⟩
            rw [List.append_assoc hosts.ascii]

theorem encodeLabel_ok {wlabel : List Nat} {unicode r : Bool} (h : encodeLabel wlabel unicode hosts = .ok (r, hosts')) :
    (r = false → unicode = false ∧ hosts'.ascii = hosts.ascii) ∧
      (r = true → ∃ text, text ≠ [] ∧ hosts'.ascii = hosts.ascii ++ text ++ [labelSeparator]) := by
  unfold encodeLabel at h
  split at h
  · obtain ⟨hu, rfl, rfl⟩ := refuse_ok h
    exact ⟨fun _ => ⟨hu, rfl⟩, fun h => (by cases h)⟩
  · obtain ⟨encoded, hp, h⟩ := bind_eq_ok.mp h
    cases encoded with
    | none =>
        dsimp only at h
        split at h
        · cases h
        · exact writeEncoded_ok h
    | some encoded => exact writeEncoded_ok h

theorem appendLabel_ok {label : List Nat} (hne : label ≠ []) (h : appendLabel lowerAndNormalize hosts label = .ok hosts') :
    ∃ text, text ≠ [] ∧ hosts'.ascii = hosts.ascii ++ text ++ [labelSeparator] := by
  unfold appendLabel at h
  obtain ⟨decoded, hd, h⟩ := bind_eq_ok.mp h
  obtain ⟨alabel, wlab, unicode⟩ := decoded
  obtain ⟨hplain, hunicode, hw⟩ := decodeLabel_ok hd hne
  cases wlab with
  | none =>
      obtain rfl := Except.ok.inj h
      refine ⟨alabel, hplain ?_, rfl⟩
      by_contra hu
      cases (hunicode (eq_true_of_ne_false hu)).1
  | some wlabel =>
      have hwne := hw wlabel rfl
      dsimp only at h
      split at h
      · obtain ⟨r, he, h⟩ := bind_eq_ok.mp h
        obtain ⟨r, other⟩ := r
        obtain ⟨hfalse, htrue⟩ := encodeLabel_ok he
        cases r with
        | true =>
            obtain rfl := Except.ok.inj h
            exact htrue rfl
        | false =>
            obtain rfl := Except.ok.inj h
            obtain ⟨hu, ha⟩ := hfalse rfl
            refine ⟨alabel, hplain hu, ?_⟩
            show other.ascii ++ alabel ++ _ = _
            rw [ha]
      next hany =>
          obtain rfl := Except.ok.inj h
          refine ⟨_, ?_, rfl⟩
          split
          · simpa using hwne
          · apply hplain
            by_contra hu
            obtain ⟨hlab, hna⟩ := hunicode (eq_true_of_ne_false hu)
            rw [Option.some.inj hlab] at hany
            exact hany hna

theorem idnaLabelConvert_length {widen : List Nat → List Nat} {labels : List (List Nat)}
    (h : idnaLabelConvert widen (appendLabel lowerAndNormalize) host labels hosts = .ok hosts') :
    hosts.ascii.length + 2 * labels.length ≤ hosts'.ascii.length := by
  induction labels generalizing hosts with
  | nil =>
      obtain rfl := Except.ok.inj h
      simp
  | cons label labels ih =>
      rw [idnaLabelConvert] at h
      split at h
      · cases h
      next hne =>
          split at h
          · cases h
          · obtain ⟨next, ha, h⟩ := bind_eq_ok.mp h
            have hrest : next.ascii.length + 2 * labels.length ≤ hosts'.ascii.length := ih h
            obtain ⟨text, htext, he⟩ := appendLabel_ok hne (stop_mapError.mp ha)
            have hpos := List.length_pos_of_ne_nil htext
            rw [he, List.length_append, List.length_append, List.length_singleton] at hrest
            rw [List.length_cons]
            omega

theorem tokens_ne_nil {α : Type} [DecidableEq α] {separator : α} {token str : List α}
    (h : token ≠ [] ∨ str ≠ []) : tokens separator token str ≠ [] := by
  induction str generalizing token with
  | nil =>
      rw [tokens]
      rcases h with h | h
      · rw [if_neg h]
        simp
      · exact absurd rfl h
  | cons ch str ih =>
      rw [tokens]
      split
      · simp
      · exact ih (.inl (by simp))

theorem asciiHost_ok (h : asciiHost host = .ok hosts) : hosts = ⟨host.map toLower, host.map toLower⟩ := by
  unfold asciiHost at h
  obtain ⟨u, hc, h⟩ := bind_eq_ok.mp h
  exact (Except.ok.inj h).symm

theorem normalizedHost_ne_nil {whost : List Nat}
    (h : normalizedHost lowerAndNormalize host whost = .ok hosts) : hosts.ascii ≠ [] := by
  unfold normalizedHost at h
  split at h
  · cases h
  · cases h
  next normalized hne _ =>
      obtain ⟨out, hc, h⟩ := bind_eq_ok.mp h
      have hlen := idnaLabelConvert_length hc
      have htokens : tokens labelSeparator.toNat [] normalized ≠ [] := tokens_ne_nil (.inr fun hn => hne (by rw [hn]))
      have hpos := List.length_pos_of_ne_nil htokens
      apply List.ne_nil_of_length_pos
      split at h
      · cases h
      · split at h
        · obtain rfl := Except.ok.inj h
          omega
        · obtain rfl := Except.ok.inj h
          rw [List.length_dropLast]
          omega

theorem idnaNormalizeHost_ne_nil {after : Bytes}
    (h : idnaNormalizeHost lowerAndNormalize host after = .ok hosts) : hosts.ascii ≠ [] := by
  unfold idnaNormalizeHost at h
  split at h
  · cases h
  next hne =>
      split at h
      · cases h
      · obtain ⟨decoded, hd, h⟩ := bind_eq_ok.mp h
        obtain ⟨whost, hasUnicode⟩ := decoded
        dsimp only at h
        split at h
        · exact normalizedHost_ne_nil h
        · split at h
          next hosts' ha =>
              obtain rfl := Except.ok.inj h
              rw [asciiHost_ok ha]
              simpa using hne
          · exact normalizedHost_ne_nil h
          · cases h

/-! ## ASCII のホスト -/

structure PlainHost (host : Bytes) : Prop where
  ascii : ∀ b ∈ host, b.toNat < 128
  labels : ∀ label ∈ tokens labelSeparator [] host, caselessStart idnaPrefix label = false

/-- `lower_and_normalize` は、ASCII の文字列を、失敗しなければ小文字にする。 -/
def LowersAscii (lowerAndNormalize : List Nat → Bool → Option (List Nat)) : Prop :=
  ∀ w, (∀ ch ∈ w, ch < 128) → ∀ w', lowerAndNormalize w true = some w' → w' = w.map lowerCode

theorem decodeHost_ascii {after rest : Bytes} (fuel : Nat) (whost : List Nat)
    (h : ∀ b ∈ rest, b.toNat < 128) (hfuel : rest.length ≤ fuel) :
    decodeHost host after fuel rest whost false = .ok (whost ++ rest.map UInt8.toNat, false) := by
  have hone : ∀ b : UInt8, b.toNat < 128 → getOctetCount b.toNat = 1 ∧ b.toNat &&& 0x7F = b.toNat := fun b hb =>
    ⟨by rw [getOctetCount_table, if_pos hb], (Nat.and_two_pow_sub_one_of_lt_two_pow hb : b.toNat &&& 2 ^ 7 - 1 = b.toNat)⟩
  induction fuel generalizing rest whost with
  | zero =>
      obtain rfl := List.eq_nil_of_length_eq_zero (Nat.le_zero.mp hfuel)
      rw [decodeHost, List.map_nil, List.append_nil]
      rfl
  | succ fuel ih =>
      cases rest with
      | nil =>
          rw [decodeHost, List.map_nil, List.append_nil]
          rfl
      | cons ch rest =>
          obtain ⟨h₁, h₂⟩ := hone ch (h ch List.mem_cons_self)
          have hchar : utf8CharToWchar (ch :: rest ++ after) 1 = (true, ch.toNat) := by
            show (true, ch.toNat &&& 0x7F) = _
            rw [h₂]
          rw [List.length_cons] at hfuel
          rw [decodeHost, h₁]
          dsimp only
          rw [hchar]
          dsimp only
          rw [if_neg (by simp), List.drop_one, List.tail_cons]
          rw [show (false || decide (1 > 1)) = false from rfl,
            ih _ (fun b hb => h b (List.mem_cons_of_mem _ hb)) (by omega), List.append_assoc]
          rfl

theorem idnaLabelConvert_labels {α σ : Type} {widen : List α → List Nat} {append : σ → List α → Except (Stop LabelError) σ}
    {labels : List (List α)} {dst out : σ} (h : idnaLabelConvert widen append host labels dst = .ok out) :
    ∀ label ∈ labels, label ≠ [] ∧ label.length ≤ maxHostnameLabelSize := by
  induction labels generalizing dst with
  | nil => simp
  | cons label labels ih =>
      rw [idnaLabelConvert] at h
      split at h
      · cases h
      next hne =>
          split at h
          · cases h
          next hlen =>
              obtain ⟨next, ha, h⟩ := bind_eq_ok.mp h
              exact List.forall_mem_cons.mpr ⟨⟨hne, Nat.not_lt.mp hlen⟩, ih h⟩

theorem tokens_map {α β : Type} [DecidableEq α] [DecidableEq β] {separator : α}
    {separator' : β} {f : α → β} (hf : ∀ x, f x = separator' ↔ x = separator) (token str : List α) :
    tokens separator' (token.map f) (str.map f) = (tokens separator token str).map (List.map f) := by
  induction str generalizing token with
  | nil =>
      rw [List.map_nil, tokens, tokens]
      by_cases ht : token = [] <;> simp [ht]
  | cons ch str ih =>
      rw [List.map_cons, tokens, tokens]
      by_cases hch : ch = separator
      · rw [if_pos hch, if_pos ((hf ch).mpr hch), List.map_cons, ← ih]
        rfl
      · have htoken : token.map f ++ [f ch] = (token ++ [ch]).map f := by rw [List.map_append, List.map_singleton]
        rw [if_neg hch, if_neg fun h => hch ((hf ch).mp h), htoken, ih]

theorem asciiHost_eq (hp : PlainHost host) (hl : ∀ label ∈ tokens labelSeparator [] host,
    label ≠ [] ∧ label.length ≤ maxHostnameLabelSize) :
    asciiHost host = .ok ⟨host.map toLower, host.map toLower⟩ := by
  have hrun : ∀ labels : List Bytes,
      (∀ label ∈ labels, (label ≠ [] ∧ label.length ≤ maxHostnameLabelSize) ∧ caselessStart idnaPrefix label = false) →
      idnaLabelConvert (List.map UInt8.toNat) (fun (_ : Unit) label => appendAscii label) host labels () = .ok () := by
    intro labels hall
    induction labels with
    | nil => rfl
    | cons label labels ih =>
        obtain ⟨⟨⟨h₁, h₂⟩, h₃⟩, hrest⟩ := List.forall_mem_cons.mp hall
        have happend : appendAscii label = .ok () := by
          rw [appendAscii, h₃]
          rfl
        rw [idnaLabelConvert, if_neg h₁, if_neg (Nat.not_lt.mpr h₂), happend]
        exact ih hrest
  unfold asciiHost
  rw [hrun _ fun label hlabel => ⟨hl label hlabel, hp.labels label hlabel⟩]
  rfl

theorem idnaNormalizeHost_plain {after : Bytes} (hp : PlainHost host) (hascii : LowersAscii lowerAndNormalize) :
    idnaNormalizeHost lowerAndNormalize host after = .ok hosts ↔ hosts = ⟨host.map toLower, host.map toLower⟩ ∧ host ≠ [] ∧
      host.length < maxHostnameSize ∧ ∀ label ∈ tokens labelSeparator [] host, label ≠ [] ∧
      label.length ≤ maxHostnameLabelSize := by
  have hlower : ∀ b : UInt8, lowerCode b.toNat = labelSeparator.toNat ↔ b = labelSeparator := by
    intro b
    have hsep : labelSeparator.toNat = 0x2E := rfl
    rw [← UInt8.toNat_inj, lowerCode, hsep]
    split
    · omega
    · rfl
  have hnormal : ∀ {whost : List Nat} {out : Hosts}, whost = host.map UInt8.toNat →
      normalizedHost lowerAndNormalize host whost = .ok out →
      ∀ label ∈ tokens labelSeparator [] host, label ≠ [] ∧ label.length ≤ maxHostnameLabelSize := by
    rintro whost out rfl h
    unfold normalizedHost at h
    split at h
    · cases h
    · cases h
    next normalized _ hn =>
        have hcodes : ∀ ch ∈ host.map UInt8.toNat, ch < 128 := by
          intro ch hch
          obtain ⟨b, hb, rfl⟩ := List.mem_map.mp hch
          exact hp.ascii b hb
        obtain rfl := hascii _ hcodes _ hn
        obtain ⟨out, hc, h⟩ := bind_eq_ok.mp h
        have hlabels := idnaLabelConvert_labels hc
        have hmap := tokens_map (f := fun b : UInt8 => lowerCode b.toNat) hlower [] host
        rw [List.map_map] at hlabels
        rw [List.map_nil] at hmap
        intro label hlabel
        obtain ⟨h₁, h₂⟩ := hlabels (label.map fun b => lowerCode b.toNat) (by
          show _ ∈ tokens labelSeparator.toNat [] (host.map fun b => lowerCode b.toNat)
          rw [hmap]
          exact List.mem_map_of_mem hlabel)
        rw [List.length_map] at h₂
        exact ⟨by simpa using h₁, h₂⟩
  unfold idnaNormalizeHost
  by_cases hnil : host = []
  · rw [if_pos hnil]
    exact iff_of_false (fun h => by cases h) fun h => h.2.1 hnil
  · rw [if_neg hnil]
    by_cases hlen : host.length ≥ maxHostnameSize
    · rw [if_pos hlen]
      exact iff_of_false (fun h => by cases h) fun h => by omega
    · rw [if_neg hlen, decodeHost_ascii _ _ hp.ascii (Nat.le_refl _), ok_bind]
      dsimp only
      rw [if_neg (by simp), List.nil_append]
      by_cases hl : ∀ label ∈ tokens labelSeparator [] host, label ≠ [] ∧ label.length ≤ maxHostnameLabelSize
      · rw [asciiHost_eq hp hl]
        constructor
        · intro h
          exact ⟨(Except.ok.inj h).symm, hnil, Nat.not_le.mp hlen, hl⟩
        · rintro ⟨rfl, -⟩
          rfl
      · refine iff_of_false ?_ fun h => hl h.2.2.2
        intro h
        split at h
        next out ha =>
            unfold asciiHost at ha
            obtain ⟨u, hc, ha⟩ := bind_eq_ok.mp ha
            exact hl (idnaLabelConvert_labels hc)
        · exact hl (hnormal rfl h)
        · cases h

end UnixCommons.HTTP
