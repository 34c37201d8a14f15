import UnixCommons.HTTP.Lemmas.Idna
import UnixCommons.String.Lemmas.Punycode

/-!
# 国際化したホストの文字とラベルの補題

ラベルの変換は、例外を投げるか、区切りのない ASCII の文字列と区切りを加える。
-/

namespace UnixCommons.HTTP

open Lib String.AsciiStringManip String.JsUnicode String.UTF8Handler String.Punycode

variable {lowerAndNormalize : List Nat → Bool → Option (List Nat)} {hosts hosts' : Hosts}
    {host after text encoded alabel : Bytes}
  {label w : List Nat} {unicode : Bool}

def Thrown {ε : Type} (stop : Stop ε) : Prop := ∃ e, stop = .error e

/-! ## 文字 -/

structure LabelText (text : Bytes) : Prop where
  ascii : ∀ b ∈ text, b.toNat < 0x80
  whole : labelSeparator ∉ text

theorem allowed_text (h : ∀ b ∈ text, isOwned idnaAllowed b = true) : LabelText text := by
  have hall : ∀ b, isOwned idnaAllowed b = true → b.toNat < 0x80 ∧ b ≠ labelSeparator :=
    forall_isOwned (P := fun b => b.toNat < 0x80 ∧ b ≠ labelSeparator) (by decide)
  exact ⟨fun b hb => (hall b (h b hb)).1, fun hmem => (hall _ (h _ hmem)).2 rfl⟩

theorem host_text (h : isValidChars text hostChars = true) : ∀ b ∈ text, b.toNat < 0x80 := by
  intro b hb
  exact forall_isOwned (P := fun b => b.toNat < 0x80) (by decide) b (List.all_eq_true.mp h b hb)

theorem allowed_of_not_hasForeign (h0 : 0 ∉ text) (h : hasForeign text = false) :
    ∀ b ∈ text, isOwned idnaAllowed b = true := by
  rw [← List.dropWhile_eq_nil_iff]
  by_contra hne
  have hmem := (List.dropWhile_sublist (isOwned idnaAllowed)).subset (List.head_mem hne)
  rw [hasForeign, List.headD_eq_head?_getD, List.head?_eq_some_head hne] at h
  have hzero := of_decide_eq_false h
  exact h0 (by simpa using not_not.mp hzero ▸ hmem)

/-! ## 一つのラベル -/

structure Decodes (label : List Nat) : Prop where
  ascii : label.any nonAscii = false
  starts : caselessStart idnaPrefix (label.map narrow) = true
  allowed : hasForeign (label.map narrow) = false

structure Decoded (lowerAndNormalize : List Nat → Bool → Option (List Nat)) (label w : List Nat) : Prop where
  decodes : Decodes label
  text : ∃ decoded, punycodeDecode ((label.map narrow).drop idnaPrefix.length) =
    .ok (some decoded) ∧ lowerAndNormalize decoded false = some w
  nonempty : w ≠ []

structure Encodes (w : List Nat) : Prop where
  foreign : w.any nonAscii = true
  hyphens : ¬ (w.head? = some idnaDelimiter.toNat ∨ w.getLast? = some idnaDelimiter.toNat)

structure Sound (lowerAndNormalize : List Nat → Bool → Option (List Nat)) (label : List Nat) : Prop where
  kept : label.any nonAscii = false → labelSeparator ∉ label.map narrow
  decode : Decodes label → ∀ f, punycodeDecode ((label.map narrow).drop idnaPrefix.length) ≠ .error f
  encode : ∀ w, w = label ∨ Decoded lowerAndNormalize label w → Encodes w → ∀ f, punycodeEncode w ≠ .error f
  partway : ∀ w, Decoded lowerAndNormalize label w → Encodes w → punycodeEncode w = .ok none → punycodePrefix w ≠ []
  plain : ∀ w, Decoded lowerAndNormalize label w → w.any nonAscii = false →
    isValidChars (w.map narrow) hostChars = true → labelSeparator ∉ w.map narrow

theorem sound_of_not_decodes (hdecodes : ¬ Decodes label) (hkept : label.any nonAscii = false →
    labelSeparator ∉ label.map narrow)
    (hencode : Encodes label → ∀ f, punycodeEncode label ≠ .error f) : Sound lowerAndNormalize label where
  kept := hkept
  decode h := absurd h hdecodes
  encode := by
    rintro w (rfl | h)
    · exact hencode
    · exact absurd h.decodes hdecodes
  partway w h := absurd h.decodes hdecodes
  plain w h := absurd h.decodes hdecodes

def Appends (hosts hosts' : Hosts) : Prop := ∃ text, LabelText text ∧ hosts'.ascii = hosts.ascii ++ text ++ [labelSeparator]

def LabelEncoded (unicode : Bool) (hosts : Hosts) (result : Bool × Hosts) : Prop :=
  (result.1 = true → Appends hosts result.2) ∧ (result.1 = false → unicode = false ∧ result.2.ascii = hosts.ascii)

theorem refuse_returns {e : LabelError} (h : hosts'.ascii = hosts.ascii) :
    Returns (refuse unicode e hosts') (LabelEncoded unicode hosts) Thrown := by
  cases unicode with
  | true => exact Returns.throw ⟨e, rfl⟩
  | false => exact Returns.pure ⟨Bool.noConfusion, fun _ => ⟨rfl, h⟩⟩

theorem writeEncoded_returns (h0 : 0 ∉ encoded) (hne : encoded ≠ []) :
    Returns (writeEncoded w encoded unicode hosts) (LabelEncoded unicode hosts) Thrown := by
  unfold writeEncoded
  refine Returns.ite (fun _ => refuse_returns rfl) fun hforeign => ?_
  rw [List.getLast?_eq_some_getLast hne]
  refine Returns.ite (fun _ => refuse_returns rfl) fun _ => ?_
  cases appendUnicode w hosts.unicode with
  | mk complete unicodeText =>
      cases complete with
      | false => exact refuse_returns rfl
      | true =>
          have htext : ∀ b ∈ idnaPrefix ++ encoded, isOwned idnaAllowed b = true := by
            rw [List.forall_mem_append]
            exact ⟨List.all_eq_true.mp (by decide), allowed_of_not_hasForeign h0 (Bool.eq_false_of_not_eq_true hforeign)⟩
          refine Returns.pure ⟨fun _ => ⟨idnaPrefix ++ encoded, allowed_text htext, ?_⟩, Bool.noConfusion⟩
          rw [List.append_assoc hosts.ascii]

theorem punycodePrefix_ne_zero (h0 : 0 ∉ w) : 0 ∉ punycodePrefix w := by
  unfold punycodePrefix
  rw [List.mem_map]
  rintro ⟨ch, hch, hzero⟩
  obtain ⟨hmem, hlt⟩ := List.mem_filter.mp hch
  have hw := (List.takeWhile_sublist _).subset hmem
  exact toLower_ne_zero (of_decide_eq_true hlt) (fun he => h0 (he ▸ hw)) hzero

theorem encodeLabel_returns (hne : w ≠ []) (h0 : 0 ∉ w)
    (hfault : Encodes w → ∀ f, punycodeEncode w ≠ .error f) (hforeign : w.any nonAscii = true)
    (hpart : unicode = false → Encodes w → punycodeEncode w = .ok none → punycodePrefix w ≠ []) :
    Returns (encodeLabel w unicode hosts) (LabelEncoded unicode hosts) Thrown := by
  unfold encodeLabel
  refine Returns.ite (fun _ => refuse_returns rfl) fun hhyphens => ?_
  have hw : Encodes w := ⟨hforeign, hhyphens⟩
  cases hrun : punycodeEncode w with
  | error f => exact absurd hrun (hfault hw f)
  | ok out =>
      cases out with
      | some encoded =>
          obtain ⟨hout, hzero⟩ := punycodeEncode_text hne h0 hrun
          exact writeEncoded_returns hzero hout
      | none =>
          refine Returns.ite (fun _ => Returns.throw ⟨_, rfl⟩) fun hu => ?_
          exact writeEncoded_returns (punycodePrefix_ne_zero h0) (hpart (Bool.eq_false_of_not_eq_true hu) hw hrun)

structure LabelDecoded (lowerAndNormalize : List Nat → Bool → Option (List Nat)) (label : List Nat)
    (result : Bytes × Option (List Nat) × Bool) : Prop where
  foreign : result.2.2 = true → result.2.1 = some label ∧ label.any nonAscii = true
  plain : result.2.2 = false → label.any nonAscii = false ∧ result.1 = label.map narrow ∧
    isValidChars (label.map narrow) hostChars = true ∧
    ∀ w ∈ result.2.1, Decoded lowerAndNormalize label w

theorem decodePunycode_returns (hs : Sound lowerAndNormalize label) (hascii : label.any nonAscii = false) :
    Returns (decodePunycode lowerAndNormalize (label.map narrow))
      (fun r => ∀ w ∈ r, Decoded lowerAndNormalize label w) Thrown := by
  unfold decodePunycode
  refine Returns.ite (fun _ => Returns.pure (by simp)) fun hcond => ?_
  rw [not_or, not_or, not_not] at hcond
  have hdecodes : Decodes label := ⟨hascii, hcond.1, Bool.eq_false_of_not_eq_true hcond.2.2⟩
  cases hrun : punycodeDecode ((label.map narrow).drop idnaPrefix.length) with
  | error f => exact absurd hrun (hs.decode hdecodes f)
  | ok out =>
      cases out with
      | none => exact Returns.pure (by simp)
      | some decoded =>
          refine Returns.pure fun w hw => ?_
          obtain ⟨hnormal, hne⟩ := Option.filter_eq_some_iff.mp hw
          exact ⟨hdecodes, ⟨decoded, hrun, hnormal⟩, of_decide_eq_true hne⟩

theorem decodeLabel_returns (hs : Sound lowerAndNormalize label) :
    Returns (decodeLabel lowerAndNormalize label) (LabelDecoded lowerAndNormalize label) Thrown := by
  unfold decodeLabel
  refine Returns.ite (fun hany => Returns.pure ⟨fun _ => ⟨rfl, hany⟩, Bool.noConfusion⟩) fun hany => ?_
  have hascii := Bool.eq_false_of_not_eq_true hany
  have hall : (label.takeWhile fun ch => ¬ nonAscii ch) = label := by
    rw [List.takeWhile_eq_self_iff]
    intro ch hch
    exact decide_eq_true (List.any_eq_false.mp hascii ch hch)
  rw [hall]
  refine Returns.ite (fun _ => Returns.throw ⟨_, rfl⟩) fun hvalid => ?_
  refine Returns.bind ((decodePunycode_returns hs hascii).mono (fun r hr => ?_) fun _ => id)
  exact Returns.pure ⟨Bool.noConfusion, fun _ => ⟨hascii, rfl, not_not.mp hvalid, hr⟩⟩

def NulFree (lowerAndNormalize : List Nat → Bool → Option (List Nat)) : Prop :=
  ∀ w b, ∀ normalized ∈ lowerAndNormalize w b, 0 ∉ normalized

theorem appendKept_appends (hs : Sound lowerAndNormalize label) (hascii : label.any nonAscii = false)
    (hvalid : isValidChars (label.map narrow) hostChars = true) (h : hosts'.ascii = hosts.ascii) :
    Appends hosts (appendKept (label.map narrow) hosts') :=
  ⟨label.map narrow, ⟨host_text hvalid, hs.kept hascii⟩, by rw [appendKept, h]⟩

theorem appendLabel_returns (hL : NulFree lowerAndNormalize) (hs : Sound lowerAndNormalize label)
    (hne : label ≠ []) (h0 : 0 ∉ label) :
    Returns (appendLabel lowerAndNormalize hosts label) (Appends hosts) Thrown := by
  unfold appendLabel
  refine Returns.bind ((decodeLabel_returns hs).mono (fun result hresult => ?_) fun _ => id)
  obtain ⟨alabel, wlab, unicode⟩ := result
  cases wlab with
  | none =>
      have hu : unicode = false := Bool.eq_false_of_not_eq_true fun h => by cases (hresult.foreign h).1
      obtain ⟨hascii, rfl, hvalid, -⟩ := hresult.plain hu
      exact Returns.pure (appendKept_appends hs hascii hvalid rfl)
  | some wlabel =>
      have hw : wlabel ≠ [] ∧ 0 ∉ wlabel ∧ (wlabel = label ∨ Decoded lowerAndNormalize label wlabel) := by
        cases unicode with
        | true =>
            obtain ⟨heq, -⟩ := hresult.foreign rfl
            obtain rfl := Option.some.inj heq
            exact ⟨hne, h0, .inl rfl⟩
        | false =>
            have hdecoded := (hresult.plain rfl).2.2.2 wlabel rfl
            obtain ⟨decoded, -, hnormal⟩ := hdecoded.text
            exact ⟨hdecoded.nonempty, hL _ _ _ hnormal, .inr hdecoded⟩
      refine Returns.ite (fun hany => ?_) fun hany => ?_
      · have hpart : unicode = false → Encodes wlabel → punycodeEncode wlabel = .ok none → punycodePrefix wlabel ≠ [] :=
          fun hu => hs.partway wlabel ((hresult.plain hu).2.2.2 wlabel rfl)
        refine Returns.bind
          ((encodeLabel_returns hw.1 hw.2.1 (hs.encode wlabel hw.2.2) hany hpart).mono (fun r hr => ?_) fun _ => id)
        obtain ⟨done, hosts'⟩ := r
        cases done with
        | true => exact Returns.pure (hr.1 rfl)
        | false =>
            obtain ⟨hu, hsame⟩ := hr.2 rfl
            obtain ⟨hascii, rfl, hvalid, -⟩ := hresult.plain hu
            exact Returns.pure (appendKept_appends hs hascii hvalid hsame)
      · have hplain := Bool.eq_false_of_not_eq_true hany
        have hu : unicode = false := Bool.eq_false_of_not_eq_true fun h => by
          obtain ⟨heq, hforeign⟩ := hresult.foreign h
          rw [Option.some.inj heq] at hplain
          exact Bool.false_ne_true (hplain.symm.trans hforeign)
        obtain ⟨hascii, rfl, hvalid, hdecoded⟩ := hresult.plain hu
        refine Returns.pure ⟨_, ?_, rfl⟩
        split_ifs with hchars
        · exact ⟨host_text hchars, hs.plain wlabel (hdecoded wlabel rfl) hplain hchars⟩
        · exact ⟨host_text hvalid, hs.kept hascii⟩

/-! ## ラベルの並び -/

theorem mapError_returns {α ε ε' : Type} {x : Except (Stop ε) α} {Q : α → Prop}
    {wrap : Stop ε → Stop ε'} (hwrap : ∀ e, Thrown (wrap (.error e)))
    (h : Returns x Q Thrown) : Returns (x.mapError wrap) Q Thrown := by
  refine Returns.mapError (h.mono (fun _ => id) ?_)
  rintro stop ⟨e, rfl⟩
  exact hwrap e

def joined (texts : List Bytes) : Bytes := texts.flatMap (· ++ [labelSeparator])

theorem idnaLabelConvert_returns (hL : NulFree lowerAndNormalize) {labels : List (List Nat)}
    (hs : ∀ label ∈ labels, Sound lowerAndNormalize label)
    (h0 : ∀ label ∈ labels, 0 ∉ label) (hosts : Hosts) :
    Returns (idnaLabelConvert id (appendLabel lowerAndNormalize) host labels hosts)
      (fun out => ∃ texts, texts.length = labels.length ∧ (∀ text ∈ texts, LabelText text) ∧
      out.ascii = hosts.ascii ++ joined texts) Thrown := by
  induction labels generalizing hosts with
  | nil => exact Returns.pure ⟨[], rfl, by simp, (List.append_nil _).symm⟩
  | cons label labels ih =>
      obtain ⟨hlabel, hlabels⟩ := List.forall_mem_cons.mp hs
      obtain ⟨hzero, hzeros⟩ := List.forall_mem_cons.mp h0
      rw [idnaLabelConvert]
      refine Returns.ite (fun _ => Returns.throw ⟨_, rfl⟩) fun hne => Returns.ite
        (fun _ => Returns.throw ⟨_, rfl⟩) fun _ => ?_
      have hwrap : ∀ e, Thrown (labelled (id label) host (.error e)) := fun e => ⟨_, rfl⟩
      refine Returns.bind ((mapError_returns hwrap (appendLabel_returns hL hlabel hne hzero)).mono
        (fun next hnext => ?_) fun _ => id)
      obtain ⟨text, htext, hascii⟩ := hnext
      refine (ih hlabels hzeros next).mono (fun out hout => ?_) fun _ => id
      obtain ⟨texts, hlen, htexts, hrest⟩ := hout
      refine ⟨text :: texts, congrArg Nat.succ hlen, List.forall_mem_cons.mpr ⟨htext, htexts⟩, ?_⟩
      rw [hrest, hascii, joined, joined, List.flatMap_cons, List.append_assoc, List.append_assoc, List.append_assoc]

theorem joined_ascii {texts : List Bytes} (h : ∀ text ∈ texts, LabelText text) : ∀ b ∈ joined texts, b.toNat < 0x80 := by
  intro b hb
  obtain ⟨text, htext, hmem⟩ := List.mem_flatMap.mp hb
  rcases List.mem_append.mp hmem with hmem | hmem
  · exact (h text htext).ascii b hmem
  · obtain rfl := List.mem_singleton.mp hmem
    decide

theorem count_joined {texts : List Bytes} (h : ∀ text ∈ texts, LabelText text) :
    (joined texts).count labelSeparator = texts.length := by
  induction texts with
  | nil => rfl
  | cons text texts ih =>
      obtain ⟨htext, htexts⟩ := List.forall_mem_cons.mp h
      rw [joined, List.flatMap_cons, List.count_append, List.count_append,
        List.count_eq_zero.mpr htext.whole, List.count_singleton_self,
        List.length_cons, ← ih htexts, joined]
      omega

theorem joined_dropLast {texts : List Bytes} (h : texts ≠ []) :
    joined texts = (joined texts).dropLast ++ [labelSeparator] := by
  obtain ⟨init, last, rfl⟩ := List.eq_nil_or_concat' texts |>.resolve_left h
  have hjoined : joined (init ++ [last]) = joined init ++ last ++ [labelSeparator] := by simp [joined]
  rw [hjoined, List.dropLast_concat]

/-! ## ラベルの数 -/

def labelCount {α : Type} [BEq α] (separator : α) (s : List α) : Nat := (s.splitOn separator).length

theorem labelCount_eq {α : Type} [DecidableEq α] (separator : α) (s : List α) :
    labelCount separator s = s.count separator + 1 := by
  unfold labelCount
  induction s with
  | nil => rfl
  | cons ch s ih =>
      rw [List.splitOn_cons_eq_if_modifyHead, List.count_cons]
      split_ifs with h
      · rw [List.length_cons, ih]
      · rw [List.length_modifyHead, ih]

theorem length_tokens {α : Type} [DecidableEq α] {separator : α} {token s : List α}
    (hne : token ≠ [] ∨ s ≠ []) (htoken : separator ∉ token) :
    (tokens separator token s).length = if (token ++ s).getLast? = some separator
    then s.count separator else s.count separator + 1 := by
  induction s generalizing token with
  | nil =>
      have hnil : token ≠ [] := hne.resolve_right fun h => h rfl
      have hlast : (token ++ []).getLast? ≠ some separator := by
        rw [List.append_nil]
        exact fun h => htoken (List.mem_of_getLast? h)
      rw [tokens, if_neg hnil, if_neg hlast]
      rfl
  | cons ch s ih =>
      rw [tokens]
      by_cases hch : ch = separator
      · subst hch
        rw [if_pos rfl, List.length_cons, List.getLast?_append_cons, List.count_cons_self]
        by_cases hs : s = []
        · subst hs
          rw [List.getLast?_singleton, if_pos rfl]
          rfl
        · have hlast : (ch :: s).getLast? = ([] ++ s).getLast? := by
            rw [List.getLast?_cons, List.nil_append, List.getLast?_eq_some_getLast hs]
            rfl
          rw [ih (.inr hs) List.not_mem_nil, hlast]
          split_ifs <;> rfl
      · have hmem : separator ∉ token ++ [ch] := by
          rw [List.mem_append, List.mem_singleton, not_or]
          exact ⟨htoken, Ne.symm hch⟩
        rw [if_neg hch, ih (.inl (by simp)) hmem, List.append_assoc, List.singleton_append, List.count_cons_of_ne hch]

theorem mem_tokens {α : Type} [DecidableEq α] {separator ch : α} {token s label : List α}
    (hlabel : label ∈ tokens separator token s) (h : ch ∈ label) : ch ∈ token ∨ ch ∈ s := by
  induction s generalizing token with
  | nil =>
      rw [tokens] at hlabel
      split_ifs at hlabel with htoken
      · cases hlabel
      · obtain rfl := List.mem_singleton.mp hlabel
        exact .inl h
  | cons a s ih =>
      rw [tokens] at hlabel
      split_ifs at hlabel with ha
      · rcases List.mem_cons.mp hlabel with rfl | hlabel
        · exact .inl h
        · exact .inr (List.mem_cons_of_mem _ ((ih hlabel).resolve_left List.not_mem_nil))
      · rcases ih hlabel with hmem | hmem
        · rcases List.mem_append.mp hmem with hmem | hmem
          · exact .inl hmem
          · obtain rfl := List.mem_singleton.mp hmem
            exact .inr List.mem_cons_self
        · exact .inr (List.mem_cons_of_mem _ hmem)

/-- 出力は ASCII で、正規化したホストと同じ数のラベルを持つ。 -/
structure Converted (normalized : List Nat) (hosts : Hosts) : Prop where
  ascii : ∀ b ∈ hosts.ascii, b.toNat < 0x80
  labels : labelCount labelSeparator hosts.ascii = labelCount labelSeparator.toNat normalized

theorem normalizedHost_returns (hL : NulFree lowerAndNormalize) {whost : List Nat}
    (hs : ∀ normalized ∈ lowerAndNormalize whost true,
      ∀ label ∈ tokens labelSeparator.toNat [] normalized, Sound lowerAndNormalize label) :
    Returns (normalizedHost lowerAndNormalize host whost)
      (fun hosts => ∃ normalized ∈ lowerAndNormalize whost true, Converted normalized hosts) Thrown := by
  unfold normalizedHost
  cases hrun : lowerAndNormalize whost true with
  | none => exact Returns.throw ⟨_, rfl⟩
  | some normalized =>
      cases normalized with
      | nil => exact Returns.throw ⟨_, rfl⟩
      | cons ch rest =>
          have hzero : ∀ label ∈ tokens labelSeparator.toNat [] (ch :: rest), 0 ∉ label :=
            fun label hlabel hmem => hL _ _ _ hrun ((mem_tokens hlabel hmem).resolve_left List.not_mem_nil)
          dsimp only
          refine Returns.bind ((idnaLabelConvert_returns hL (hs _ hrun) hzero ⟨[], []⟩).mono
            (fun out hout => ?_) fun _ => id)
          obtain ⟨texts, hlen, htexts, hout⟩ := hout
          rw [List.nil_append] at hout
          rw [length_tokens (.inr (List.cons_ne_nil ch rest)) List.not_mem_nil, List.nil_append] at hlen
          have hlow := joined_ascii htexts
          have hcount := count_joined htexts
          rw [← hout] at hlow hcount
          refine Returns.ite (fun _ => Returns.throw ⟨_, rfl⟩) fun _ => Returns.ite (fun hlast => ?_) fun hlast => ?_
          · rw [if_pos hlast] at hlen
            refine Returns.pure ⟨ch :: rest, rfl, hlow, ?_⟩
            rw [labelCount_eq, labelCount_eq, hcount, hlen]
          · rw [if_neg hlast] at hlen
            have htrim : out.ascii = out.ascii.dropLast ++ [labelSeparator] := by
              rw [hout]
              exact joined_dropLast (List.ne_nil_of_length_pos (by omega))
            refine Returns.pure ⟨ch :: rest, rfl, fun b hb => hlow b ((List.dropLast_sublist _).subset hb), ?_⟩
            rw [htrim, List.count_append, List.count_singleton_self] at hcount
            rw [labelCount_eq, labelCount_eq]
            dsimp only
            omega

/-! ## ホストの復号 -/

/-- `xn--` も、空でも長すぎるラベルもない ASCII のホスト。 -/
structure AsciiLabels (host : Bytes) : Prop extends PlainHost host where
  sizes : ∀ label ∈ tokens labelSeparator [] host, label ≠ [] ∧ label.length ≤ maxHostnameLabelSize

theorem octetCount_one (b : UInt8) (h : getOctetCount b.toNat = 1) : b.toNat < 0x80 := by
  rw [getOctetCount_table] at h
  split_ifs at h <;> omega

theorem decodeHost_hasUnicode {rest : Bytes} {fuel : Nat} {whost whost' : List Nat}
    (h : decodeHost host after fuel rest whost true = .ok (whost', false)) : False := by
  induction fuel generalizing rest whost with
  | zero => cases h
  | succ fuel ih =>
      cases rest with
      | nil => cases h
      | cons ch rest =>
          rw [decodeHost] at h
          dsimp only at h
          split at h
          · cases h
          · exact ih h

theorem ascii_of_decodeHost {rest : Bytes} {fuel : Nat} {whost whost' : List Nat}
    {hasUnicode : Bool} (hfuel : rest.length ≤ fuel)
    (h : decodeHost host after fuel rest whost hasUnicode = .ok (whost', false)) : ∀ b ∈ rest, b.toNat < 0x80 := by
  induction fuel generalizing rest whost hasUnicode with
  | zero =>
      obtain rfl := List.eq_nil_of_length_eq_zero (Nat.le_zero.mp hfuel)
      simp
  | succ fuel ih =>
      cases rest with
      | nil => simp
      | cons ch rest =>
          rw [decodeHost] at h
          dsimp only at h
          rw [List.length_cons] at hfuel
          split at h
          · cases h
          next hcorrect =>
              by_cases hmany : getOctetCount ch.toNat > 1
              · rw [decide_eq_true hmany, Bool.or_true] at h
                exact (decodeHost_hasUnicode h).elim
              · have hpos : getOctetCount ch.toNat ≠ 0 := by
                  intro hzero
                  rw [hzero] at hcorrect
                  exact hcorrect (by simp [utf8CharToWchar])
                have hcount : getOctetCount ch.toNat = 1 := by omega
                rw [hcount, List.drop_one, List.tail_cons] at h
                exact List.forall_mem_cons.mpr ⟨octetCount_one ch hcount, ih (by omega) h⟩

theorem length_decodeHost {rest : Bytes} {fuel : Nat} {whost whost' : List Nat} {hasUnicode hasUnicode' : Bool}
    (h : decodeHost host after fuel rest whost hasUnicode = .ok (whost', hasUnicode')) :
    whost'.length ≤ whost.length + rest.length := by
  induction fuel generalizing rest whost hasUnicode with
  | zero =>
      obtain ⟨rfl, -⟩ := Prod.mk.inj (Except.ok.inj h)
      omega
  | succ fuel ih =>
      cases rest with
      | nil =>
          obtain ⟨rfl, -⟩ := Prod.mk.inj (Except.ok.inj h)
          omega
      | cons ch rest =>
          rw [decodeHost] at h
          dsimp only at h
          split at h
          · cases h
          next hcorrect =>
              have hpos : getOctetCount ch.toNat ≠ 0 := by
                intro hzero
                rw [hzero] at hcorrect
                exact hcorrect (by simp [utf8CharToWchar])
              have hlen := ih h
              rw [List.length_append, List.length_singleton, List.length_drop, List.length_cons] at hlen
              rw [List.length_cons]
              omega

theorem decodeHost_returns (host after : Bytes) (fuel : Nat) (rest : Bytes) (whost : List Nat) (hasUnicode : Bool) :
    Returns (decodeHost host after fuel rest whost hasUnicode) (fun _ => True) Thrown := by
  induction fuel generalizing rest whost hasUnicode with
  | zero => exact Returns.pure trivial
  | succ fuel ih =>
      cases rest with
      | nil => exact Returns.pure trivial
      | cons ch rest => exact Returns.ite (fun _ => Returns.throw ⟨_, rfl⟩) fun _ => ih _ _ _

/-! ## ASCII のホスト -/

theorem asciiLabels_returns (host : Bytes) (labels : List Bytes) :
    Returns (idnaLabelConvert (List.map UInt8.toNat) (fun (_ : Unit) label => appendAscii label) host labels ())
      (fun _ => ∀ label ∈ labels, (label ≠ [] ∧ label.length ≤ maxHostnameLabelSize) ∧
      caselessStart idnaPrefix label = false) Thrown := by
  induction labels with
  | nil => exact Returns.pure (by simp)
  | cons label labels ih =>
      rw [idnaLabelConvert]
      refine Returns.ite (fun _ => Returns.throw ⟨_, rfl⟩) fun hne => Returns.ite
        (fun _ => Returns.throw ⟨_, rfl⟩) fun hlen => ?_
      have happend : Returns (appendAscii label) (fun _ => caselessStart idnaPrefix label = false) Thrown :=
        Returns.ite (fun _ => Returns.throw ⟨_, rfl⟩) fun h => Returns.pure (Bool.eq_false_of_not_eq_true h)
      have hwrap : ∀ e, Thrown (labelled (label.map UInt8.toNat) host (.error e)) := fun e => ⟨_, rfl⟩
      refine Returns.bind ((mapError_returns hwrap happend).mono (fun _ hstart => ?_) fun _ => id)
      exact ih.mono (fun _ hrest => List.forall_mem_cons.mpr ⟨⟨⟨hne, Nat.not_lt.mp hlen⟩, hstart⟩, hrest⟩) fun _ => id

theorem asciiHost_returns (hascii : ∀ b ∈ host, b.toNat < 0x80) :
    Returns (asciiHost host) (fun hosts => AsciiLabels host ∧ hosts = ⟨host.map toLower, host.map toLower⟩) Thrown := by
  refine Returns.bind ((asciiLabels_returns host (tokens labelSeparator [] host)).mono (fun _ hlabels => ?_) fun _ => id)
  exact Returns.pure ⟨⟨⟨hascii, fun label hlabel => (hlabels label hlabel).2⟩, fun label hlabel =>
    (hlabels label hlabel).1⟩, rfl⟩

structure Normalises (lowerAndNormalize : List Nat → Bool → Option (List Nat)) (host after : Bytes)
    (normalized : List Nat) : Prop where
  plain : AsciiLabels host → normalized = (host.map toLower).map UInt8.toNat
  other : ¬ AsciiLabels host →
    ∃ whost hasUnicode, decodeHost host after host.length host [] false = .ok (whost, hasUnicode) ∧
    lowerAndNormalize whost true = some normalized

theorem toLower_ascii : ∀ b : UInt8, b.toNat < 0x80 → (toLower b).toNat < 0x80 := by
  intro b hb
  rw [toLower_toNat]
  split <;> omega

theorem converted_lower (h : AsciiLabels host) : Converted ((host.map toLower).map UInt8.toNat)
    ⟨host.map toLower, host.map toLower⟩ := by
  refine ⟨fun b hb => ?_, ?_⟩
  · obtain ⟨a, ha, rfl⟩ := List.mem_map.mp hb
    exact toLower_ascii a (h.ascii a ha)
  · rw [labelCount_eq, labelCount_eq, List.count_map_of_injective _ _ fun _ _ => UInt8.toNat_inj.mp]

theorem idnaNormalizeHost_returns (hL : NulFree lowerAndNormalize)
    (hs : ∀ normalized, Normalises lowerAndNormalize host after normalized →
      ¬ AsciiLabels host → ∀ label ∈ tokens labelSeparator.toNat [] normalized, Sound lowerAndNormalize label) :
    Returns (idnaNormalizeHost lowerAndNormalize host after)
      (fun hosts => ∃ normalized, Normalises lowerAndNormalize host after normalized ∧
      Converted normalized hosts) Thrown := by
  unfold idnaNormalizeHost
  refine Returns.ite (fun _ => Returns.throw ⟨_, rfl⟩) fun _ => Returns.ite (fun _ => Returns.throw ⟨_, rfl⟩) fun _ => ?_
  cases hrun : decodeHost host after host.length host [] false with
  | error stop => exact (decodeHost_returns host after host.length host [] false).of_error hrun
  | ok decoded =>
      obtain ⟨whost, hasUnicode⟩ := decoded
      -- 正規化するホストは、ASCII のラベルだけのホストではない。
      have hnormal : ¬ AsciiLabels host → Returns (normalizedHost lowerAndNormalize host whost)
          (fun hosts => ∃ normalized, Normalises lowerAndNormalize host after normalized ∧
          Converted normalized hosts) Thrown := by
        intro hnot
        have hall : ∀ normalized ∈ lowerAndNormalize whost true, Normalises lowerAndNormalize host after normalized :=
          fun normalized h => ⟨fun hplain => absurd hplain hnot, fun _ => ⟨whost, hasUnicode, hrun, h⟩⟩
        refine (normalizedHost_returns hL fun normalized h => hs normalized (hall normalized h)
          hnot).mono (fun hosts hhosts => ?_) fun _ => id
        obtain ⟨normalized, h, hconverted⟩ := hhosts
        exact ⟨normalized, hall normalized h, hconverted⟩
      rw [ok_bind]
      refine Returns.ite (fun hu => hnormal fun hplain => ?_) fun hu => ?_
      · rw [decodeHost_ascii _ _ hplain.ascii (Nat.le_refl _)] at hrun
        rw [← (Prod.mk.inj (Except.ok.inj hrun)).2] at hu
        exact Bool.false_ne_true hu
      · obtain rfl := Bool.eq_false_of_not_eq_true hu
        have hascii := ascii_of_decodeHost (Nat.le_refl _) hrun
        have hplain := asciiHost_returns hascii
        cases hhost : asciiHost host with
        | ok hosts =>
            obtain ⟨hlabels, rfl⟩ := hplain.of_ok hhost
            exact Returns.pure ⟨_, ⟨fun _ => rfl, fun hnot => absurd hlabels hnot⟩, converted_lower hlabels⟩
        | error stop =>
            obtain ⟨e, rfl⟩ := hplain.of_error hhost
            refine hnormal fun hlabels => ?_
            rw [asciiHost_eq hlabels.toPlainHost hlabels.sizes] at hhost
            cases hhost

theorem idnaNormalizeHost_asciiLabels (h : AsciiLabels host) (hne : host ≠ []) (hlen : host.length < maxHostnameSize) :
    idnaNormalizeHost lowerAndNormalize host after = .ok ⟨host.map toLower, host.map toLower⟩ := by
  unfold idnaNormalizeHost
  rw [if_neg hne, if_neg (Nat.not_le.mpr hlen), decodeHost_ascii _ _ h.ascii (Nat.le_refl _), ok_bind]
  dsimp only
  rw [if_neg Bool.false_ne_true, asciiHost_eq h.toPlainHost h.sizes]
  rfl

/-! ## ホストの外を読むこと -/

def Trailing (b : UInt8) : Prop := b.toNat &&& 0xC0 = 0x80

inductive Chars : Bytes → Prop
  | nil : Chars []
  | cons {ch : UInt8} {tail rest : Bytes} (hlen : tail.length + 1 = getOctetCount ch.toNat)
      (htail : ∀ b ∈ tail, Trailing b) (h : Chars rest) : Chars (ch :: tail ++ rest)

def Cut (s : Bytes) : Prop := ∃ ch tail, s = ch :: tail ∧ tail.length + 1 < getOctetCount ch.toNat ∧ ∀ b ∈ tail, Trailing b

def Complete (host : Bytes) : Prop := ∀ before s, host = before ++ s → Chars before → ¬ Cut s

theorem tailLoop_append {n dest : Nat} {s : Bytes} (h : n ≤ s.length ∨ ∃ b ∈ s, ¬ Trailing b) :
    tailLoop n (s ++ after) dest = tailLoop n s dest := by
  induction n generalizing s dest with
  | zero => rfl
  | succ n ih =>
      cases s with
      | nil => exact absurd h (by simp)
      | cons b s =>
          rw [List.cons_append, tailLoop, tailLoop]
          by_cases hb : b.toNat &&& 0xC0 = 0x80
          · have hs : n ≤ s.length ∨ ∃ b ∈ s, ¬ Trailing b := by
              rcases h with hlen | ⟨a, ha, hnot⟩
              · exact .inl (Nat.le_of_succ_le_succ hlen)
              · rcases List.mem_cons.mp ha with rfl | ha
                · exact absurd hb hnot
                · exact .inr ⟨a, ha, hnot⟩
            simp only [List.headD_cons, hb, ne_eq, not_true_eq_false, if_false, List.tail_cons]
            exact ih hs
          · simp only [List.headD_cons, ne_eq, hb, not_false_eq_true, if_true]

theorem tailLoop_true {n dest : Nat} {s : Bytes} (h : (tailLoop n s dest).1 = true) : n ≤ s.length ∧
    ∀ b ∈ s.take n, Trailing b := by
  induction n generalizing s dest with
  | zero => simp
  | succ n ih =>
      rw [tailLoop] at h
      split at h
      · cases h
      next hb =>
          cases s with
          | nil => exact absurd (by decide) hb
          | cons b s =>
              obtain ⟨hlen, htail⟩ := ih h
              exact ⟨Nat.succ_le_succ hlen, List.forall_mem_cons.mpr ⟨not_not.mp hb, htail⟩⟩

theorem Complete.next {ch : UInt8} {rest : Bytes} (h : Complete (ch :: rest))
    (hcorrect : (utf8CharToWchar (ch :: rest) (getOctetCount ch.toNat)).1 = true) :
    Complete ((ch :: rest).drop (getOctetCount ch.toNat)) := by
  unfold utf8CharToWchar at hcorrect
  split at hcorrect
  next hcount =>
      obtain ⟨hlen, htail⟩ := tailLoop_true hcorrect
      obtain ⟨n, hn⟩ := Nat.exists_eq_add_one_of_ne_zero hcount.1
      rw [hn, Nat.add_sub_cancel, List.tail_cons] at hlen htail
      rw [hn, List.drop_succ_cons]
      intro before s hs hchars
      refine h (ch :: rest.take n ++ before) s ?_ (.cons ?_ htail hchars)
      · rw [List.append_assoc, ← hs, List.cons_append, List.take_append_drop]
      · rw [List.length_take_of_le hlen, hn]
  · cases hcorrect

theorem Complete.char {ch : UInt8} {rest : Bytes} (h : Complete (ch :: rest)) :
    getOctetCount ch.toNat - 1 ≤ rest.length ∨ ∃ b ∈ rest, ¬ Trailing b := by
  by_contra hnot
  rw [not_or, not_exists] at hnot
  refine h [] (ch :: rest) rfl .nil ⟨ch, rest, rfl, by omega, fun b hb => ?_⟩
  by_contra hb'
  exact hnot.2 b ⟨hb, hb'⟩

theorem decodeHost_complete {rest : Bytes} (h : Complete rest) (fuel : Nat) (whost : List Nat) (hasUnicode : Bool) :
    decodeHost host after fuel rest whost hasUnicode = decodeHost host [] fuel rest whost hasUnicode := by
  induction fuel generalizing rest whost hasUnicode with
  | zero => rfl
  | succ fuel ih =>
      cases rest with
      | nil => rfl
      | cons ch rest =>
          have hchar : utf8CharToWchar (ch :: rest ++ after) (getOctetCount ch.toNat) =
              utf8CharToWchar (ch :: rest) (getOctetCount ch.toNat) := by
            unfold utf8CharToWchar
            split
            · exact tailLoop_append h.char
            · rfl
          rw [decodeHost, decodeHost, List.append_nil, hchar]
          dsimp only
          by_cases hcorrect : (utf8CharToWchar (ch :: rest) (getOctetCount ch.toNat)).1 = true
          · rw [if_neg (not_not.mpr hcorrect), if_neg (not_not.mpr hcorrect)]
            exact ih (h.next hcorrect) _ _
          · rw [if_pos hcorrect, if_pos hcorrect]

end UnixCommons.HTTP
