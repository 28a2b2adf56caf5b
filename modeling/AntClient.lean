import AntClient.Session
import AntClient.Stream
import AntClient.Wire
import AntClient.Quorum
import AntClient.Roundtrip
import AntClient.Pool
import AntClient.Openings
import AntClient.Median
import AntClient.Rounds
import AntClient.Signed
import AntClient.OldFormat
import AntClient.Retries
import AntClient.Sdp
import AntClient.Pinning
import AntClient.Listing
import AntClient.Answers
import AntClient.Liveness
import AntClient.Requests
import AntClient.Channel
import AntClient.Browser
import AntClient.Exchange
import AntClient.Fair
import AntClient.Agreement
import AntClient.Work
import AntClient.Normal
import AntClient.NormalPayments
import AntClient.Wallet
import AntClient.Statistics
import AntClient.Interface
