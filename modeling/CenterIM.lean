import CenterIM.ByteText
import CenterIM.Decimal
import CenterIM.LineStream
import CenterIM.OrderedMap
import CenterIM.StrText
import CenterIM.Contact
import CenterIM.Event
import CenterIM.EventFraming
import CenterIM.EventText
import CenterIM.HistoryFastPath
import CenterIM.Runs
import CenterIM.UnreadDelivery
import CenterIM.Captcha
import CenterIM.CaptchaIsolation
import CenterIM.FileTransfer
import CenterIM.ContactFile
import CenterIM.ModeList
import CenterIM.OfflineQueue
import CenterIM.SharedQueue
import CenterIM.Accounts
import CenterIM.Base64
import CenterIM.BasicAuth
import CenterIM.ContactDirectory
import CenterIM.ContactList
import CenterIM.ContactOrder
import CenterIM.DeletedText
import CenterIM.FileEvent
import CenterIM.GroupMoves
import CenterIM.HttpClient
import CenterIM.HttpQueue
import CenterIM.HttpReading
import CenterIM.HttpResponse
import CenterIM.IrcSend
import CenterIM.JabberPresence
import CenterIM.LoadedText
import CenterIM.OpenUrl
import CenterIM.RssFeed
import CenterIM.RssPolling
import CenterIM.ScanOffset
import CenterIM.UrlSubstitution
import CenterIM.XmlCodec
import CenterIM.AuthChallenge
import CenterIM.Conference
import CenterIM.ExternalActions
import CenterIM.FeedSafety
import CenterIM.FriendOf
import CenterIM.LineWidth
import CenterIM.LongText
import CenterIM.ResumedReading
import CenterIM.VisibilitySync
import CenterIM.WordOrder
import CenterIM.ChannelSearch
import CenterIM.ContactsRecord
import CenterIM.FileSending
import CenterIM.HtmlEntities
import CenterIM.MimeBuffers
import CenterIM.SmsRecord
import CenterIM.LinkText
import CenterIM.CaptchaQuestions
import CenterIM.CharsetEscapes
import CenterIM.ExternalFile
import CenterIM.JabberBase64
import CenterIM.LinkedList
import CenterIM.LinkedListRuns
import CenterIM.PostBody
import CenterIM.ProxySetting
import CenterIM.TabMargins
import CenterIM.DirectCipher
import CenterIM.DirectHandshake
import CenterIM.FlapStream
import CenterIM.MsnTransfer
import CenterIM.MsnTransferPhases
import CenterIM.MsnTransferRuns
