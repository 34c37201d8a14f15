import UnixCommons.GeoIP.IPMap
import UnixCommons.String.Lemmas.IntText
import Mathlib.Tactic.SplitIfs

/-!
# 番地から都市の補題

番地と行の文字列の読み取り、行を読んだ後の表、検索のループの補題。
-/

namespace UnixCommons.GeoIP.IPMap

open Lib String.AsciiStringManip String.StrToInt

variable {inetPton6 : Bytes → Option Bytes} {map : IPMapCity2} {word rest : Bytes} {ch : UInt8}
    {done : List Nat} {x n k ip mask : Nat}

/-! ## 十進の数 -/

def decimal (x : Nat) : Bytes := (natText x).map ascii

theorem natText_eq (x : Nat) (h : x < 1000) : natText x =
    if x < 10 then [digitChar x]
    else if x < 100 then [digitChar (x / 10), digitChar (x % 10)]
    else [digitChar (x / 100), digitChar (x / 10 % 10), digitChar (x % 10)] := by
  have hwidth : ∀ n, width x ≤ n ↔ x < 10 ^ n := fun n => width_le_iff
  have h0 := hwidth 0
  have h1 := hwidth 1
  have h2 := hwidth 2
  have h3 := hwidth 3
  simp only [natText]
  split_ifs with h10 h100
  · have hw : max 1 (width x) = 1 := by omega
    rw [hw]
    simp [numeral, Nat.mod_eq_of_lt h10]
  · have hw : max 1 (width x) = 2 := by omega
    have hdiv : x / 10 < 10 := by omega
    rw [hw]
    simp [numeral, Nat.mod_eq_of_lt hdiv]
  · have hw : max 1 (width x) = 3 := by omega
    have hdiv : x / 100 < 10 := by omega
    rw [hw]
    simp [numeral, Nat.div_div_eq_div_mul, Nat.mod_eq_of_lt hdiv]

theorem inetPton4Loop_digit {d value : Nat} {seen : Bool} (hd : d < 10)
    (hzero : ¬ (seen ∧ value = 0)) (hmax : value * 10 + d ≤ 255) :
    inetPton4Loop (ascii (digitChar d) :: rest) done value seen = inetPton4Loop rest done (value * 10 + d) true := by
  have hle : digit (ascii (digitChar d)) ≤ 9 := by
    rw [digit_digitChar hd]
    omega
  rw [inetPton4Loop, if_pos hle, digit_digitChar hd, if_neg]
  rintro (hz | hlt)
  · exact hzero hz
  · omega

theorem inetPton4Loop_decimal (h : x < 256) : inetPton4Loop
    (decimal x ++ rest) done 0 false = inetPton4Loop rest done x true := by
  rw [decimal, natText_eq x (by omega)]
  split_ifs with h10 h100
  · simp only [List.map_cons, List.map_nil, List.cons_append, List.nil_append]
    rw [inetPton4Loop_digit h10 (by simp) (by omega), Nat.zero_mul, Nat.zero_add]
  · simp only [List.map_cons, List.map_nil, List.cons_append, List.nil_append]
    rw [inetPton4Loop_digit (by omega) (by simp) (by omega), inetPton4Loop_digit (by omega) (by simp; omega) (by omega)]
    congr 1
    omega
  · simp only [List.map_cons, List.map_nil, List.cons_append, List.nil_append]
    rw [inetPton4Loop_digit (by omega) (by simp) (by omega), inetPton4Loop_digit (by omega) (by simp; omega) (by omega),
      inetPton4Loop_digit (by omega) (by simp; omega) (by omega)]
    congr 1
    omega

theorem inetPton4Loop_period (h : done.length ≠ 3) : inetPton4Loop
    (ascii '.' :: rest) done x true = inetPton4Loop rest (done ++ [x]) 0 false := by
  have hdigit : ¬ digit (ascii '.') ≤ 9 := by decide
  rw [inetPton4Loop, if_neg hdigit, if_pos ⟨rfl, rfl⟩, if_neg h]

def dotted (ip : Nat) : Bytes :=
  decimal (ip / 2 ^ 24) ++ ascii '.' :: (decimal (ip / 2 ^ 16 % 256) ++
    ascii '.' :: (decimal (ip / 2 ^ 8 % 256) ++ ascii '.' :: decimal (ip % 256)))

theorem inetPton4_dotted (h : ip < 2 ^ 32) :
    inetPton4 (dotted ip) = some [ip / 2 ^ 24, ip / 2 ^ 16 % 256, ip / 2 ^ 8 % 256, ip % 256] := by
  have hlast : decimal (ip % 256) = decimal (ip % 256) ++ [] := (List.append_nil _).symm
  rw [inetPton4, dotted, inetPton4Loop_decimal (by omega), inetPton4Loop_period (by simp), inetPton4Loop_decimal (by omega),
    inetPton4Loop_period (by simp), inetPton4Loop_decimal (by omega),
    inetPton4Loop_period (by simp), hlast, inetPton4Loop_decimal (by omega)]
  simp [inetPton4Loop]

theorem mem_decimal (h : ch ∈ decimal x) : digit ch ≤ 9 := digit_numeral x _ ch h

theorem mem_dotted (h : ch ∈ dotted ip) : digit ch ≤ 9 ∨ ch = ascii '.' := by
  simp only [dotted, List.mem_append, List.mem_cons] at h
  rcases h with h | rfl | h | rfl | h | rfl | h
  · exact .inl (mem_decimal h)
  · exact .inr rfl
  · exact .inl (mem_decimal h)
  · exact .inr rfl
  · exact .inl (mem_decimal h)
  · exact .inr rfl
  · exact .inl (mem_decimal h)

theorem notMem_dotted (hd : 9 < digit ch) (hne : ch ≠ ascii '.') : ch ∉ dotted ip := by
  intro h
  rcases mem_dotted h with h | h
  · omega
  · exact hne h

theorem decimal_ne_nil : decimal x ≠ [] := by
  intro h
  have hlen : (decimal x).length = max 1 (width x) := by rw [decimal, List.length_map, length_natText]
  rw [h, List.length_nil] at hlen
  omega

theorem dotted_ne_nil : dotted ip ≠ [] := by
  rw [dotted]
  intro h
  exact decimal_ne_nil (List.append_eq_nil_iff.mp h).1

theorem ipToIpv4_dotted (h : ip < 2 ^ 32) : ipToIpv4 inetPton6 (dotted ip) = ip := by
  rw [ipToIpv4, if_neg (notMem_dotted (by decide) (by decide)), inetPton4_dotted h]
  simp only [networkValue, List.foldl_cons, List.foldl_nil]
  omega

/-! ## 行 -/

theorem cutAt_append (h : ch ∉ word) : cutAt ch (word ++ ch :: rest) = some (word, rest) := by
  have hpos : ∀ c ∈ word, (c != ch) = true := by
    intro c hc
    rw [bne_iff_ne]
    rintro rfl
    exact h hc
  rw [cutAt, if_pos (by simp), List.takeWhile_append_of_pos hpos, List.dropWhile_append_of_pos hpos]
  simp

theorem getToken_slash : getToken (ascii '/' :: word) = getToken word := by
  simp [getToken]

theorem getToken_append (hne : word ≠ []) (h : ascii '/' ∉ word) (hrest : ∀ c, rest.head? = some c → c = ascii '/') :
    getToken (word ++ rest) = some (word, rest) := by
  have hneq : ∀ c ∈ word, c ≠ ascii '/' := by
    rintro c hc rfl
    exact h hc
  have hpos : ∀ c ∈ word, (c != ascii '/') = true := fun c hc => bne_iff_ne.mpr (hneq c hc)
  have hdrop : (word ++ rest).dropWhile (· == ascii '/') = word ++ rest := by
    cases word with
    | nil => exact absurd rfl hne
    | cons c word => simp [hneq c List.mem_cons_self]
  have hstop : rest.takeWhile (· != ascii '/') = [] ∧ rest.dropWhile (· != ascii '/') = rest := by
    cases rest with
    | nil => exact ⟨rfl, rfl⟩
    | cons c rest => simp [hrest c rfl]
  simp only [getToken, hdrop]
  rw [if_neg (fun hnil => hne (List.append_eq_nil_iff.mp hnil).1),
    List.takeWhile_append_of_pos hpos, List.dropWhile_append_of_pos hpos, hstop.1,
    hstop.2, List.append_nil]

theorem strToInt_decimal (h : n ≤ 255) : strToInt unsignedChar (decimal n) 0 = (true, (n : Int)) := by
  rw [strToInt_iff (by decide) decimal_ne_nil (fun _ => mem_decimal)]
  rw [decimal, decimalFrom_natText]
  exact ⟨rfl, by simp only [unsignedChar]; omega⟩

theorem parseIpMask_dotted (hip : ip < 2 ^ 32) (hpos : ip ≠ 0) (hn : n ≤ 255) :
    parseIpMask inetPton6 (dotted ip ++ ascii '/' :: decimal n) = some (n, ip) := by
  have hslash : ascii '/' ∉ dotted ip := notMem_dotted (by decide) (by decide)
  have hnul : ∀ c ∈ dotted ip, (c != 0) = true := by
    intro c hc
    rw [bne_iff_ne]
    rintro rfl
    exact notMem_dotted (by decide) (by decide) hc
  have hslash' : ascii '/' ∉ decimal n := fun h => absurd (mem_decimal h) (by decide)
  have hfirst : getToken (dotted ip ++ ascii '/' :: decimal n) = some (dotted ip, ascii '/' :: decimal n) :=
    getToken_append dotted_ne_nil hslash (by simp [eq_comm])
  have hsecond : getToken (ascii '/' :: decimal n) = some (decimal n, []) := by
    have happend : getToken (decimal n ++ []) = some (decimal n, []) := getToken_append decimal_ne_nil hslash' (by simp)
    rw [getToken_slash, ← happend, List.append_nil]
  have hwhole : (dotted ip).takeWhile (· != 0) = dotted ip := by
    rw [List.takeWhile_eq_self_iff]
    exact hnul
  simp only [parseIpMask, hfirst, Option.getD_some, hwhole, ipToIpv4_dotted hip,
    Nat.mod_eq_of_lt hip, if_neg hpos, hsecond, Option.map_some,
    strToInt_decimal hn, if_true, Int.toNat_natCast]

/-! ## 正しい行 -/

structure Line where
  network : Nat
  bits : Nat
  place : Bytes
  network_lt : network < 2 ^ 32
  network_pos : network ≠ 0
  bits_le : bits ≤ 32
  host_zero : network % 2 ^ (32 - bits) = 0
  place_line : ascii '\n' ∉ place

def Line.text (line : Line) : Bytes := dotted line.network ++ ascii '/' :: decimal line.bits ++ ascii ',' :: line.place

def Line.location (line : Line) : CityLocationHolder := parseCityLocation (unquote line.place)

def Line.Contains (line : Line) (ip : Nat) : Prop := ip / 2 ^ (32 - line.bits) = line.network / 2 ^ (32 - line.bits)

instance (line : Line) (ip : Nat) : Decidable (line.Contains ip) :=
  inferInstanceAs (Decidable (ip / 2 ^ (32 - line.bits) = line.network / 2 ^ (32 - line.bits)))

theorem Line.bits_pos (line : Line) : 0 < line.bits := by
  by_contra hzero
  have hbits : line.bits = 0 := by omega
  have hmod := line.host_zero
  rw [hbits, Nat.sub_zero, Nat.mod_eq_of_lt line.network_lt] at hmod
  exact line.network_pos hmod

theorem Line.contains_iff (line : Line) : line.Contains ip ↔ line.network = ip / 2 ^
    (32 - line.bits) * 2 ^ (32 - line.bits) := by
  have hdiv : line.network / 2 ^ (32 - line.bits) * 2 ^ (32 - line.bits) = line.network :=
    Nat.div_mul_cancel (Nat.dvd_of_mod_eq_zero line.host_zero)
  constructor
  · intro h
    rw [Line.Contains] at h
    rw [h, hdiv]
  · intro h
    rw [Line.Contains, h, Nat.mul_div_cancel _ (Nat.two_pow_pos _)]

theorem loadLine_text (line : Line) {locations : MaskCityLocationMap}
    (h : map.maskToLocations[32 - line.bits]? = some locations) : loadLine inetPton6 map line.text =
      .ok ⟨max map.maxCheckBits (32 - line.bits),
        map.maskToLocations.set (32 - line.bits) (insertLocation locations line.network line.location)⟩ := by
  have hcomma : ascii ',' ∉ dotted line.network ++ ascii '/' :: decimal line.bits := by
    intro hmem
    rcases List.mem_append.mp hmem with hmem | hmem
    · exact notMem_dotted (by decide) (by decide) hmem
    · rcases List.mem_cons.mp hmem with heq | hmem
      · exact absurd heq (by decide)
      · exact absurd (mem_decimal hmem) (by decide)
  have hbits := line.bits_le
  rw [loadLine, Line.text, cutAt_append hcomma]
  simp only
  rw [parseIpMask_dotted line.network_lt line.network_pos (by omega)]
  simp only
  rw [if_neg (by omega), h]
  rfl

/-! ## 表 -/

theorem lookup_insertLocation {locations : MaskCityLocationMap} {location : CityLocationHolder}
    {key : Nat} : (insertLocation locations mask location).lookup key =
      (locations.lookup key).or (if mask = key then some location else none) := by
  by_cases hkey : mask = key
  · cases hkey
    cases hold : locations.lookup mask with
    | none => simp [insertLocation, hold]
    | some old => simp [insertLocation, hold]
  · have hne : (key == mask) = false := beq_false_of_ne (Ne.symm hkey)
    simp only [insertLocation, if_neg hkey, Option.or_none]
    split_ifs
    · rfl
    · simp [List.lookup_cons, hne]

def firstLine (lines : List Line) (k key : Nat) : Option Line :=
  lines.find? fun line => 32 - line.bits = k ∧ line.network = key

structure Loaded (map : IPMapCity2) (lines : List Line) : Prop where
  found : ∀ k < 32, ∃ locations, map.maskToLocations[k]? = some locations ∧
    ∀ key, locations.lookup key = (firstLine lines k key).map Line.location
  le_max : ∀ line ∈ lines, 32 - line.bits ≤ map.maxCheckBits
  max_lt : map.maxCheckBits < 32
  max_eq : map.maxCheckBits = 0 ∨ ∃ line ∈ lines, 32 - line.bits = map.maxCheckBits

theorem Loaded.empty : Loaded .empty [] := by
  refine ⟨?_, by simp, by decide, .inl rfl⟩
  intro k hk
  exact ⟨[], List.getElem?_replicate_of_lt hk, fun key => rfl⟩

theorem Loaded.step {lines : List Line} (h : Loaded map lines) (inetPton6 : Bytes → Option Bytes) (line : Line) :
    ∃ map', loadLine inetPton6 map line.text = .ok map' ∧ Loaded map' (lines ++ [line]) := by
  have hpos := line.bits_pos
  have hlt : 32 - line.bits < 32 := by omega
  obtain ⟨locations, hget, hlookup⟩ := h.found (32 - line.bits) hlt
  have hlen : 32 - line.bits < map.maskToLocations.length := (List.getElem?_eq_some_iff.mp hget).1
  refine ⟨_, loadLine_text line hget, ?_, ?_, ?_, ?_⟩
  · intro k hk
    by_cases hkey : 32 - line.bits = k
    · refine ⟨insertLocation locations line.network line.location, by simp [← hkey, hlen], fun key => ?_⟩
      rw [lookup_insertLocation, hlookup, firstLine, firstLine, List.find?_append, Option.map_or, hkey]
      by_cases hnet : line.network = key
      · simp [hkey, hnet]
      · simp [hnet]
    · obtain ⟨other, hother, hfound⟩ := h.found k hk
      refine ⟨other, by simp only; rw [List.getElem?_set_ne hkey]; exact hother, fun key => ?_⟩
      rw [hfound, firstLine, firstLine, List.find?_append]
      simp [hkey]
  · intro line' hmem
    rcases List.mem_append.mp hmem with hmem | hmem
    · exact Nat.le_trans (h.le_max line' hmem) (Nat.le_max_left _ _)
    · cases List.mem_singleton.mp hmem
      exact Nat.le_max_right _ _
  · exact Nat.max_lt.mpr ⟨h.max_lt, hlt⟩
  · rcases Nat.le_total (32 - line.bits) map.maxCheckBits with hle | hle
    · simp only [Nat.max_eq_left hle]
      rcases h.max_eq with hzero | ⟨line', hmem, heq⟩
      · exact .inl hzero
      · exact .inr ⟨line', List.mem_append_left _ hmem, heq⟩
    · simp only [Nat.max_eq_right hle]
      exact .inr ⟨line, by simp, rfl⟩

theorem Loaded.foldlM {before : List Line} (h : Loaded map before) (inetPton6 : Bytes → Option Bytes) (lines : List Line) :
    ∃ map', (lines.map Line.text).foldlM (loadLine inetPton6) map = .ok map' ∧ Loaded map' (before ++ lines) := by
  induction lines generalizing map before with
  | nil => exact ⟨map, rfl, by simpa using h⟩
  | cons line lines ih =>
      obtain ⟨next, hnext, hloaded⟩ := h.step inetPton6 line
      obtain ⟨map', hmap', hfinal⟩ := ih hloaded
      refine ⟨map', ?_, by simpa using hfinal⟩
      rw [List.map_cons, List.foldlM_cons, hnext]
      exact hmap'

/-! ## 検索 -/

theorem and_mask (hip : ip < 2 ^ 32) (hk : k ≤ 32) : ip &&& (2 ^ 32 - 2 ^ k) = ip / 2 ^ k * 2 ^ k := by
  have hmask : 2 ^ 32 - 2 ^ k = 2 ^ k * (2 ^ (32 - k) - 1) := by
    rw [Nat.mul_sub, ← Nat.pow_add, Nat.add_sub_cancel' hk, Nat.mul_one]
  rw [hmask, Nat.mul_comm]
  apply Nat.eq_of_testBit_eq
  intro j
  rw [Nat.testBit_and, Nat.mul_comm, Nat.testBit_two_pow_mul, Nat.testBit_two_pow_sub_one,
    Nat.mul_comm, Nat.testBit_two_pow_mul, Nat.testBit_div_two_pow]
  by_cases hjk : k ≤ j
  · rw [Nat.sub_add_cancel hjk]
    by_cases hj : j < 32
    · simp [hjk]
      omega
    · have hzero : ip.testBit j = false :=
      Nat.testBit_lt_two_pow (Nat.lt_of_lt_of_le hip (Nat.pow_le_pow_right (by decide) (by omega)))
      simp [hzero]
  · simp [hjk]

theorem mask_succ (hk : k < 32) : (2 ^ 32 - 2 ^ k) * 2 % 2 ^ 32 = 2 ^ 32 - 2 ^ (k + 1) := by
  have hpos : 0 < 2 ^ k := Nat.two_pow_pos k
  have hle : 2 ^ k ≤ 2 ^ 31 := Nat.pow_le_pow_right (by decide) (by omega)
  have hsucc : 2 ^ (k + 1) = 2 ^ k * 2 := by rw [Nat.pow_succ]
  rw [hsucc]
  generalize 2 ^ k = m at hpos hle ⊢
  omega

theorem searchLoop_eq {lines : List Line} (h : Loaded map lines) (hip : ip < 2 ^ 32) {fuel : Nat}
    (hk : k + fuel ≤ 32) : searchLoop map ip fuel k (2 ^ 32 - 2 ^ k) =
      .ok ((List.range' k fuel).findSome? fun j => (firstLine lines j (ip / 2 ^ j * 2 ^ j)).map Line.location) := by
  induction fuel generalizing k with
  | zero => rfl
  | succ fuel ih =>
      obtain ⟨locations, hget, hlookup⟩ := h.found k (by omega)
      rw [searchLoop, hget, List.range'_succ, List.findSome?_cons]
      simp only
      rw [and_mask hip (by omega), hlookup]
      cases (firstLine lines k (ip / 2 ^ k * 2 ^ k)).map Line.location with
      | some location => rfl
      | none =>
          simp only
          rw [mask_succ (by omega)]
          exact ih (by omega)

/-! ## 見つかる行 -/

def LongestPlace (lines : List Line) (ip : Nat) : Option CityLocationHolder → Prop
  | none => ∀ line ∈ lines, ¬ line.Contains ip
  | some location => ∃ before line after, lines = before ++ line :: after ∧ line.Contains ip ∧
      location = line.location ∧ (∀ other ∈ lines, other.Contains ip → other.bits ≤ line.bits) ∧
      ∀ other ∈ before, other.Contains ip → other.bits < line.bits

theorem line_host_iff (line : Line) (k : Nat) :
    (32 - line.bits = k ∧ line.network = ip / 2 ^ k * 2 ^ k) ↔ 32 - line.bits = k ∧ line.Contains ip := by
  constructor
  · rintro ⟨rfl, h⟩
    exact ⟨rfl, line.contains_iff.mpr h⟩
  · rintro ⟨rfl, h⟩
    exact ⟨rfl, line.contains_iff.mp h⟩

theorem firstLine_eq_none_iff {lines : List Line} :
    firstLine lines k (ip / 2 ^ k * 2 ^ k) = none ↔ ∀ line ∈ lines, 32 - line.bits = k → ¬ line.Contains ip := by
  simp only [firstLine, List.find?_eq_none, decide_eq_true_eq, line_host_iff, not_and]

theorem longestPlace_of_firstLine {lines : List Line} {line : Line} (h : firstLine lines k (ip / 2 ^ k * 2 ^ k) = some line)
    (hshort : ∀ j < k, firstLine lines j (ip / 2 ^ j * 2 ^ j) = none) : LongestPlace lines ip (some line.location) := by
  obtain ⟨hline, before, after, hlines, hbefore⟩ := List.find?_eq_some_iff_append.mp h
  rw [decide_eq_true_eq, line_host_iff] at hline
  have hle := line.bits_le
  have hmax : ∀ other ∈ lines, other.Contains ip → other.bits ≤ line.bits := by
    intro other hmem hother
    by_contra hlt
    have hle' := other.bits_le
    exact firstLine_eq_none_iff.mp (hshort (32 - other.bits) (by omega)) other hmem rfl hother
  refine ⟨before, line, after, hlines, hline.2, rfl, hmax, ?_⟩
  intro other hmem hother
  have hother' := hbefore other hmem
  rw [Bool.not_eq_true', decide_eq_false_iff_not, line_host_iff] at hother'
  have hbits := hmax other (by simp [hlines, hmem]) hother
  have hne : other.bits ≠ line.bits := fun heq => hother' ⟨heq ▸ hline.1, hother⟩
  omega

theorem findSome?_range'_none {α : Type} {f : Nat → Option α}
    (h : (List.range' 0 n).findSome? f = none) : ∀ j < n, f j = none := by
  rw [List.findSome?_eq_none_iff] at h
  intro j hj
  exact h j (by simp [List.mem_range', hj])

theorem findSome?_range'_some {α : Type} {f : Nat → Option α} {a : α}
    (h : (List.range' 0 n).findSome? f = some a) : ∃ k < n, f k = some a ∧ ∀ j < k, f j = none := by
  obtain ⟨before, k, after, hrange, hk, hbefore⟩ := List.findSome?_eq_some_iff.mp h
  obtain ⟨m, hm, rfl, hrest⟩ := List.range'_eq_append_iff.mp hrange
  obtain ⟨rfl, hpos, -⟩ := List.range'_eq_cons_iff.mp hrest.symm
  refine ⟨_, by omega, hk, fun j hj => hbefore j ?_⟩
  simp only [List.mem_range'_1]
  omega

end UnixCommons.GeoIP.IPMap
