import UnixCommons.GeoIP.Lemmas.IPMap

/-!
# 番地から都市の定理

検索は、読んだ網の中で最も短い桁数の表を調べない。
-/

namespace UnixCommons.GeoIP.IPMap

open Lib String.AsciiStringManip

variable {inetPton6 : Bytes → Option Bytes} {content : Bytes} {lines : List Line} {ip : Nat}

theorem load_lines (inetPton6 : Bytes → Option Bytes) (hlines : (getLines content).filter (· != []) = lines.map Line.text) :
    ∃ map, load inetPton6 (some content) = .ok map ∧ Loaded map lines := by
  obtain ⟨map, hmap, hloaded⟩ := Loaded.empty.foldlM inetPton6 lines
  exact ⟨map, by rw [load, hlines, hmap], hloaded⟩

/-- 検索の結果が最も長い網の場所であるのは、番地が、どの網にもないか、最も短い桁数の網より長い網にある時である。 -/
theorem city_location_longest_iff
    (hlines : (getLines content).filter (· != []) = lines.map Line.text) (hip : ip < 2 ^ 32)
    (hpos : ip ≠ 0) : (∃ map location, load inetPton6 (some content) = .ok map ∧
        cityLocationByAddr inetPton6 map (some (dotted ip)) = .ok location ∧ LongestPlace lines ip location) ↔
      ∀ line ∈ lines, line.Contains ip → ∃ longer ∈ lines, longer.Contains ip ∧ ∃ shorter ∈ lines,
        shorter.bits < longer.bits := by
  obtain ⟨map, hload, hloaded⟩ := load_lines inetPton6 hlines
  have hmax := hloaded.max_lt
  have hsearch : cityLocationByAddr inetPton6 map (some (dotted ip)) =
      .ok ((List.range' 0 map.maxCheckBits).findSome? fun j =>
      (firstLine lines j (ip / 2 ^ j * 2 ^ j)).map Line.location) := by
    rw [cityLocationByAddr, ipToIpv4_dotted hip, Nat.mod_eq_of_lt hip, if_neg hpos]
    exact searchLoop_eq (k := 0) hloaded hip (by omega)
  cases hfound : (List.range' 0 map.maxCheckBits).findSome? fun j =>
    (firstLine lines j (ip / 2 ^ j * 2 ^ j)).map Line.location with
  | none =>
      rw [hfound] at hsearch
      have hnone := findSome?_range'_none hfound
      constructor
      · rintro ⟨map', location, hload', hsearch', hplace⟩
        rw [hload] at hload'
        cases hload'
        rw [hsearch] at hsearch'
        cases hsearch'
        intro line hmem hline
        exact absurd hline (hplace line hmem)
      · intro hcond
        refine ⟨map, none, hload, hsearch, ?_⟩
        intro line hmem hline
        obtain ⟨longer, hlonger, hcontains, shorter, hshorter, hlt⟩ := hcond line hmem hline
        have hle := hloaded.le_max shorter hshorter
        have hbits := longer.bits_le
        have hmissed := hnone (32 - longer.bits) (by omega)
        rw [Option.map_eq_none_iff, firstLine_eq_none_iff] at hmissed
        exact hmissed longer hlonger rfl hcontains
  | some location =>
      rw [hfound] at hsearch
      obtain ⟨k, hk, hline, hbefore⟩ := findSome?_range'_some hfound
      obtain ⟨found, hfirst, rfl⟩ := Option.map_eq_some_iff.mp hline
      have hshort : ∀ j < k, firstLine lines j (ip / 2 ^ j * 2 ^ j) = none :=
        fun j hj => Option.map_eq_none_iff.mp (hbefore j hj)
      have hhost : 32 - found.bits = k ∧ found.Contains ip := by
        have hpred := List.find?_some hfirst
        rwa [decide_eq_true_eq, line_host_iff] at hpred
      have hmem : found ∈ lines := List.mem_of_find?_eq_some hfirst
      refine iff_of_true ⟨map, _, hload, hsearch, longestPlace_of_firstLine hfirst hshort⟩ ?_
      intro line _ _
      rcases hloaded.max_eq with hzero | ⟨shorter, hshorter, heq⟩
      · omega
      · exact ⟨found, hmem, hhost.2, shorter, hshorter, by omega⟩

def nestedContent : Bytes := "10.0.0.0/8,us\n10.1.0.0/16,eu/north/oslo\n".toList.map ascii

theorem city_location_longest_nested :
    ∃ lines ip map location, (getLines nestedContent).filter (· != []) = lines.map Line.text ∧ load
      (fun _ => none) (some nestedContent) = .ok map ∧
      cityLocationByAddr (fun _ => none) map (some (dotted ip)) = .ok location ∧ LongestPlace lines ip location := by
  let wide : Line := ⟨0x0A000000, 8, "us".toList.map ascii, by decide, by decide, by decide, by decide, by decide⟩
  let narrow : Line := ⟨0x0A010000, 16, "eu/north/oslo".toList.map ascii,
      by decide, by decide, by decide, by decide, by decide⟩
  have hlines : (getLines nestedContent).filter (· != []) = [wide, narrow].map Line.text := by decide
  have hip : 0x0A010203 < 2 ^ 32 := by decide
  have hiff := @city_location_longest_iff (fun _ => none) nestedContent [wide, narrow] 0x0A010203 hlines hip (by decide)
  have hshorter : wide.bits < narrow.bits := by decide
  have hcontains : narrow.Contains 0x0A010203 := by decide
  obtain ⟨map, location, hload, hsearch, hplace⟩ :=
    hiff.mpr fun _ _ _ => ⟨narrow, by simp, hcontains, wide, by simp, hshorter⟩
  exact ⟨[wide, narrow], 0x0A010203, map, location, hlines, hload, hsearch, hplace⟩

def singleContent : Bytes := "10.0.0.0/8,us\n".toList.map ascii

/-- 網にある番地が見つからない。 -/
theorem city_location_single_missed :
    ∃ line map, (getLines singleContent).filter (· != []) = [Line.text line] ∧
      line.Contains 0x0A010203 ∧ load (fun _ => none) (some singleContent) = .ok map ∧
      cityLocationByAddr (fun _ => none) map (some (dotted 0x0A010203)) = .ok none := by
  let line : Line := ⟨0x0A000000, 8, "us".toList.map ascii, by decide, by decide, by decide, by decide, by decide⟩
  exact ⟨line, _, by decide, by decide, rfl, by decide⟩

end UnixCommons.GeoIP.IPMap
