import UnixCommons.Lib.Numeral
import UnixCommons.String.AsciiStringManip
import UnixCommons.String.IntText

/-!
# 番地から都市

`GeoIP/IPMap.cpp` の `ip_to_ipv4` と `IPMapCity2` の写し。`inet_pton` の `AF_INET` は glibc の定めに従って書き、`AF_INET6` は引数に取る。
`mask_to_locations_` の範囲の外を読み書きすることは、`outOfRange` で止まる。計算機は、下位のバイトを先に置く。
-/

namespace UnixCommons.GeoIP.IPMap

open Lib String.AsciiStringManip String.StrToInt

/-! ## 番地の文字列 -/

/-- `inet_pton(AF_INET, …)`。`done` は読み終えた数、`value` は読んでいる数、`digit` は、その数の文字を読んだことである。 -/
def inetPton4Loop : Bytes → List Nat → Nat → Bool → Option (List Nat)
  | [], done, value, seen => if done.length = 3 ∧ seen then some (done ++ [value]) else none
  | ch :: src, done, value, seen =>
      if digit ch ≤ 9 then
        if (seen ∧ value = 0) ∨ 255 < value * 10 + digit ch then none
          else inetPton4Loop src done (value * 10 + digit ch) true
      else if ch = ascii '.' ∧ seen then
        if done.length = 3 then none else inetPton4Loop src (done ++ [value]) 0 false
      else
        none

def inetPton4 (text : Bytes) : Option (List Nat) := inetPton4Loop text [] 0 false

/-- `ntohl`、`ntohs`。 -/
def networkValue (bytes : List Nat) : Nat := bytes.foldl (fun value byte => value * 256 + byte) 0

variable (inetPton6 : Bytes → Option Bytes)

def ipToIpv4 (ip : Bytes) : Nat :=
  if ascii ':' ∈ ip then
    match inetPton6 ip with
    | none => 0
    | some addr =>
        let addr := addr.map UInt8.toNat
        if networkValue (addr.take 4) = 0 then
          if networkValue ((addr.drop 4).take 4) = 0 ∧ (addr.drop 8).take 4 = [0, 0, 0xFF, 0xFF]
            then networkValue ((addr.drop 12).take 4) else 0
        else if addr.take 2 = [0x20, 0x02] then
          networkValue ((addr.drop 2).take 4)
        else
          0
  else
    match inetPton4 ip with
    | none => 0
    | some addr => networkValue addr

/-! ## 行 -/

structure CityLocationHolder where
  countryCode : Bytes
  region : Bytes
  city : Bytes
  deriving DecidableEq, Repr

def cutAt (ch : UInt8) (str : Bytes) : Option (Bytes × Bytes) :=
  if ch ∈ str then some (str.takeWhile (· != ch), (str.dropWhile (· != ch)).tail) else none

def parseCityLocation (cityLocStr : Bytes) : CityLocationHolder :=
  match cutAt (ascii '/') cityLocStr with
  | none => ⟨cityLocStr, [], []⟩
  | some (country, rest) =>
      match cutAt (ascii '/') rest with
      | none => ⟨country, rest, []⟩
      | some (region, city) => ⟨country, region, city⟩

def getToken (str : Bytes) : Option (Bytes × Bytes) :=
  let str := str.dropWhile (· == ascii '/')
  if str = [] then none else some (str.takeWhile (· != ascii '/'), str.dropWhile (· != ascii '/'))

def unsignedChar : IntegerType := ⟨0, 255, false⟩

def parseIpMask (ipMaskStr : Bytes) : Option (Nat × Nat) :=
  let token := (getToken ipMaskStr).getD ([], ipMaskStr)
  let mask := ipToIpv4 inetPton6 (token.1.takeWhile (· != 0)) % 2 ^ 32
  if mask = 0 then none
  else
    let bitsStr := ((getToken token.2).map Prod.fst).getD []
    let bits := strToInt unsignedChar bitsStr 0
    if bits.1 then some (bits.2.toNat, mask) else none

def unquote (cityLocStr : Bytes) : Bytes :=
  if 1 < cityLocStr.length ∧ cityLocStr.head? = some (ascii '"') ∧ cityLocStr.getLast? = some (ascii '"') then
    (cityLocStr.drop 1).take (cityLocStr.length - 2)
  else
    cityLocStr

/-! ## 表 -/

/-- `invalidFormat` は、読めなかった部分を持つ。 -/
inductive Fault
  | fileNotExists
  | invalidFormat (ipMaskStr : Bytes)
  | nullIp
  | unsupportedIp (ip : Bytes)
  | outOfRange
  deriving DecidableEq, Repr

abbrev MaskCityLocationMap := List (Nat × CityLocationHolder)

/-- `unordered_map::insert`。既にある鍵の値は変えない。 -/
def insertLocation (map : MaskCityLocationMap) (mask : Nat) (location : CityLocationHolder) : MaskCityLocationMap :=
  if (map.lookup mask).isSome then map else (mask, location) :: map

structure IPMapCity2 where
  maxCheckBits : Nat
  maskToLocations : List MaskCityLocationMap
  deriving DecidableEq, Repr

def IPMapCity2.empty : IPMapCity2 := ⟨0, List.replicate 32 []⟩

def loadLine (map : IPMapCity2) (line : Bytes) : Except Fault IPMapCity2 :=
  match cutAt (ascii ',') line with
  | none => .ok map
  | some (ipMaskStr, cityLocStr) =>
      match parseIpMask inetPton6 ipMaskStr with
      | none => .error (.invalidFormat ipMaskStr)
      | some (ipBits, ipMask) =>
          if 32 < ipBits then .error (.invalidFormat ipMaskStr)
          else
            match map.maskToLocations[32 - ipBits]? with
            | none => .error .outOfRange
            | some locations =>
                let locations := insertLocation locations ipMask (parseCityLocation (unquote cityLocStr))
                .ok ⟨max map.maxCheckBits (32 - ipBits), map.maskToLocations.set (32 - ipBits) locations⟩

def getLines : Bytes → List Bytes
  | [] => [[]]
  | ch :: src => if ch = ascii '\n' then [] :: getLines src else (ch :: (getLines src).headD []) :: (getLines src).tail

def load (file : Option Bytes) : Except Fault IPMapCity2 :=
  match file with
  | none => .error .fileNotExists
  | some content => ((getLines content).filter (· != [])).foldlM (loadLine inetPton6) .empty

/-! ## 検索 -/

/-- `city_location_by_addr_` のループ。 -/
def searchLoop (map : IPMapCity2) (ip : Nat) : Nat → Nat → Nat → Except Fault (Option CityLocationHolder)
  | 0, _, _ => .ok none
  | fuel + 1, bitsI, ipMask =>
      match map.maskToLocations[bitsI]? with
      | none => .error .outOfRange
      | some locations =>
          match locations.lookup (ip &&& ipMask) with
          | some location => .ok (some location)
          | none => searchLoop map ip fuel (bitsI + 1) (ipMask * 2 % 2 ^ 32)

def cityLocationByAddr (map : IPMapCity2) (ip : Option Bytes) : Except Fault (Option CityLocationHolder) :=
  match ip with
  | none => .error .nullIp
  | some ip =>
      let ipv4 := ipToIpv4 inetPton6 ip % 2 ^ 32
      if ipv4 = 0 then .error (.unsupportedIp ip) else searchLoop map ipv4 map.maxCheckBits 0 0xFFFFFFFF

end UnixCommons.GeoIP.IPMap
