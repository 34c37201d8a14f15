import UnixCommons.PlainStorage.Theorems.Allocator
import UnixCommons.PlainStorage.Theorems.Map
import UnixCommons.Generics.Theorems.DecimalOp
import UnixCommons.Generics.Theorems.DecimalText
import UnixCommons.Generics.Theorems.Allocator
import UnixCommons.Generics.Theorems.Statistics
import UnixCommons.Generics.Theorems.Uuid
import UnixCommons.Generics.Theorems.BoundedMap
import UnixCommons.Generics.Theorems.CompressedSet
import UnixCommons.String.Theorems.UTF8
import UnixCommons.String.Theorems.StringManip
import UnixCommons.String.Theorems.Punycode
import UnixCommons.String.Theorems.SubString
import UnixCommons.HTTP.Theorems.UrlAddress
import UnixCommons.HTTP.Theorems.HttpAddress
import UnixCommons.HTTP.Theorems.NormalizeAddress
import UnixCommons.HTTP.Theorems.CookieHeader
import UnixCommons.Generics.Theorems.Time
import UnixCommons.Generics.Theorems.ActiveObject
import UnixCommons.Generics.Theorems.TaskRunner
import UnixCommons.String.Theorems.UnicodeNormalizer
import UnixCommons.Language.Theorems.NormalizeTrigger
import UnixCommons.Generics.Theorems.FileCache
import UnixCommons.CORBA.Theorems.ObjectPool
import UnixCommons.GeoIP.Theorems.IPMap
import UnixCommons.HTTP.Theorems.HttpAsync
import UnixCommons.Language.Theorems.PolyglotTokenizer
import UnixCommons.PlainStorage.Theorems.LoadIndex
import UnixCommons.Generics.Theorems.SimpleConstruct
import UnixCommons.String.Theorems.Utf8Text
import UnixCommons.Generics.Theorems.RandomSelect
import UnixCommons.String.Theorems.TextTemplate
import UnixCommons.Stream.Theorems.FileStreamBuf
import UnixCommons.Stream.Theorems.MemoryStream
import UnixCommons.Generics.Theorems.DescriptorListener
import UnixCommons.Generics.Theorems.ExecuteAndListen
import UnixCommons.String.Theorems.Analyzer
