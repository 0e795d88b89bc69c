import UnixCommons.Generics.DecimalOrder
import UnixCommons.Generics.DecimalRemainders
import UnixCommons.Generics.DecimalOverflow
import UnixCommons.Generics.NarrowDecimal
import UnixCommons.Generics.SimpleDecimalText
import UnixCommons.Generics.BoundedMapEviction
import UnixCommons.Generics.CRC
import UnixCommons.Generics.RandomSelect
import UnixCommons.String.Utf8Check
import UnixCommons.String.Utf8Category
import UnixCommons.Generics.Scheduler
import UnixCommons.Generics.Periodic
import UnixCommons.String.MimeUrl
import UnixCommons.String.CsvField
import UnixCommons.String.JsonEscape
import UnixCommons.String.Base64
import UnixCommons.String.JsUnicode
import UnixCommons.String.Xml
import UnixCommons.String.UnicodeNormalizer
import UnixCommons.String.SubStringCompare
import UnixCommons.String.Replace
import UnixCommons.PlainStorage.MapRuns
import UnixCommons.GeoIP.IPMapCity2
import UnixCommons.UServerUtils.QueueAtomicPop
import UnixCommons.HTTP.SignalQueue
import UnixCommons.Generics.FileCache
import UnixCommons.Generics.TimeCalendar
import UnixCommons.Logger.FileLogger
import UnixCommons.CORBA.ObjectPoolChoice
import UnixCommons.Stream.FileStreamBuf
import UnixCommons.UServerUtils.FileManagerLimits
import UnixCommons.HTTP.UrlFix
import UnixCommons.HTTP.CookieHeader
import UnixCommons.Language.Tokenizer
import UnixCommons.HTTP.CookieRoundTrip
