import FreshPlayer.Transition
import FreshPlayer.KeyTree
import FreshPlayer.Holdings
import FreshPlayer.MessageLoop
import FreshPlayer.MessageLoopConservation
import FreshPlayer.NestedLoops
import FreshPlayer.NestedLoopDiscipline
import FreshPlayer.Var
import FreshPlayer.VarRelease
import FreshPlayer.VarAccounting
import FreshPlayer.ResourceTable
import FreshPlayer.ResourceTableInvariant
import FreshPlayer.Delivery
import FreshPlayer.UrlLoader
import FreshPlayer.UrlLoaderDelivery
import FreshPlayer.AsyncNetwork
import FreshPlayer.AsyncNetworkSections
import FreshPlayer.AsyncNetworkCompletion
import FreshPlayer.AsyncNetworkClose
import FreshPlayer.Ragel
import FreshPlayer.UriGrammar
import FreshPlayer.UriParser
import FreshPlayer.UriText
import FreshPlayer.UriParse
import FreshPlayer.UriRoundTrip
import FreshPlayer.UriExtract
import FreshPlayer.UriRelative
import FreshPlayer.Rfc3986
import FreshPlayer.UriDotSegments
import FreshPlayer.UriMerge
import FreshPlayer.UriResolution
import FreshPlayer.FlashFile
import FreshPlayer.FlashFileConfinement
import FreshPlayer.MessageLoopQuit
import FreshPlayer.MessageLoopOrder
import FreshPlayer.MessageLoopProgress
import FreshPlayer.ResourceIds
import FreshPlayer.GraphicsCompletion
import FreshPlayer.GraphicsCompletionProtocol
import FreshPlayer.Graphics2d
import FreshPlayer.Graphics2dBuffers
import FreshPlayer.Graphics2dReferences
import FreshPlayer.UrlRequests
import FreshPlayer.UrlRequestsServing
import FreshPlayer.UrlRequestsOpen
import FreshPlayer.UrlRequestsIsolation
import FreshPlayer.UrlRequestsToFile
import FreshPlayer.Custody
import FreshPlayer.ProxyClasses
import FreshPlayer.ProxyReferences
import FreshPlayer.UrlUtil
import FreshPlayer.Clipboard
import FreshPlayer.PostData
import FreshPlayer.PostDataBody
import FreshPlayer.UrlLoaderOpen
import FreshPlayer.UrlDescriptors
import FreshPlayer.AsyncNetworkConnect
import FreshPlayer.AsyncNetworkOwned
import FreshPlayer.AsyncNetworkCleanup
import FreshPlayer.AsyncNetworkLives
import FreshPlayer.BindGraphics
import FreshPlayer.CText
import FreshPlayer.HeaderParser
import FreshPlayer.HeaderRoundTrip
import FreshPlayer.VarContents
import FreshPlayer.VarArray
import FreshPlayer.VarDictionary
import FreshPlayer.Calendar
import FreshPlayer.X509Time
import FreshPlayer.X509TimeGrammar
import FreshPlayer.X509TimeReading
import FreshPlayer.ProxyVars
import FreshPlayer.ProxyVarOperations
import FreshPlayer.ProxyVarBalance
import FreshPlayer.ProxyEnumerate
import FreshPlayer.VideoCapture
import FreshPlayer.VideoCaptureBuffers
import FreshPlayer.VideoCaptureExclusive
import FreshPlayer.ConfigGrammar
import FreshPlayer.ConfigParser
import FreshPlayer.ConfigLines
import FreshPlayer.ConfigValues
import FreshPlayer.ConfigLocality
import FreshPlayer.VideoDecoder
import FreshPlayer.VideoDecoderPictures
import FreshPlayer.AlsaTransfer
import FreshPlayer.AudioJack
import FreshPlayer.CharSet
import FreshPlayer.ClipboardTransfer
import FreshPlayer.ClipboardRoundTrip
import FreshPlayer.NetAddress
import FreshPlayer.TexSubMapping
import FreshPlayer.ShaderSource
import FreshPlayer.GraphicsAttributes
import FreshPlayer.DueTime
import FreshPlayer.MessageLoopRestore
import FreshPlayer.X509Field
import FreshPlayer.ImeEvent
import FreshPlayer.EncodingAlias
import FreshPlayer.UriDotBuffer
import FreshPlayer.VarIds
import FreshPlayer.VarTrace
import FreshPlayer.NetAddressText
import FreshPlayer.UriLayout
import FreshPlayer.UriReading
import FreshPlayer.UriSteps
import FreshPlayer.UriBounds
import FreshPlayer.Rendezvous
import FreshPlayer.X11EventThread
import FreshPlayer.X11Registrations
import FreshPlayer.X11OwnWindows
import FreshPlayer.AlsaStreams
import FreshPlayer.AlsaStreamTables
import FreshPlayer.AlsaStreamCalls
import FreshPlayer.BrowserCalls
import FreshPlayer.Fullscreen
import FreshPlayer.FullscreenThread
import FreshPlayer.FullscreenEvents
import FreshPlayer.FullscreenViews
import FreshPlayer.MessageLoopChannel
import FreshPlayer.InputEvents
import FreshPlayer.InputDelivery
import FreshPlayer.InputGrammar
import FreshPlayer.InputRequests
import FreshPlayer.FlashMenu
import FreshPlayer.AudioStatus
import FreshPlayer.BackendPlugin
